import Bytecode.ClassFile
import Bytecode.Proofs.Reader.Encoding
import Mathlib.Data.List.Perm.Basic
import Mathlib.Data.Nat.Bitwise

/-!
# Raw class files

A raw class file is what the bytes of a class file say, field by field, with indices in place of the
names that they refer to.  Every field has the range of its bytes, so that `encode` writes all of
them and no raw class file is out of range.  `Denotes` says which class a raw class file stands for,
and `Resolvable` that it stands for one: every index refers to a constant of the right kind.
-/

namespace Bytecode

/-! ## References -/

namespace Pool

/-- The pool with the given slots and nothing outside them. -/
def ofSlots (slots : List (Option Constant)) : Pool where
  slots := slots.toArray

/-- There is a text at an index. -/
def Utf8At (p : Pool) (index : Int) (text : Text) : Prop := p.get? index = some (.utf8 text)

/-- There is a class with a name at an index. -/
def ClassAt (p : Pool) (index : Int) (name : Text) : Prop :=
  ∃ nameIndex, p.get? index = some (.named .classInfo nameIndex) ∧ p.Utf8At nameIndex name

/-- There is a superclass at an index, or none where the index is zero. -/
def SuperAt (p : Pool) (index : Int) (name : Option Text) : Prop :=
  (index = 0 ∧ name = none) ∨ (index ≠ 0 ∧ ∃ text, name = some text ∧ p.ClassAt index text)

end Pool

/-! ## Access flags -/

/-- A flag is a single bit, which is set in a number. -/
def Flag.SetIn (f : Flag) (value : Nat) : Prop :=
  ∃ bit, f.mask = 2 ^ bit ∧ value.testBit bit = true

namespace AccessFlags

/-- What a number says about its owner.  The number itself is kept, and the names are those of the
flags in the owner's table that are set in it, in the order of the table. -/
structure Says (f : AccessFlags) (owner : FlagOwner) (value : Nat) : Prop where
  value_eq : f.value = value
  mem_names_iff : ∀ name, name ∈ f.names ↔ ∃ flag ∈ owner.flags, flag.name = name ∧ flag.SetIn value
  names_sublist : f.names.Sublist (owner.flags.map (·.name))

variable {owner : FlagOwner} {value : Nat}

theorem nodup_names (owner : FlagOwner) : (owner.flags.map (·.name)).Nodup := by
  cases owner <;> decide

theorem exists_bit {flag : Flag} (h : flag ∈ owner.flags) : ∃ bit, flag.mask = 2 ^ bit := by
  have hbits : ∀ flag ∈ owner.flags, ∃ bit < 16, flag.mask = 2 ^ bit := by
    cases owner <;> decide
  obtain ⟨bit, -, hbit⟩ := hbits flag h
  exact ⟨bit, hbit⟩

theorem and_mask_ne_zero_iff {flag : Flag} (h : flag ∈ owner.flags) :
    value &&& flag.mask ≠ 0 ↔ flag.SetIn value := by
  obtain ⟨bit, hbit⟩ := exists_bit h
  have hset : flag.SetIn value ↔ value.testBit bit = true := by
    constructor
    · rintro ⟨k, hk, hv⟩
      rwa [Nat.pow_right_injective (Nat.le_refl 2) (hbit.symm.trans hk)]
    · intro hv
      exact ⟨bit, hbit, hv⟩
  rw [hset, hbit, Nat.and_two_pow]
  cases value.testBit bit <;> simp

theorem says_ofValue (owner : FlagOwner) (value : Nat) :
    (ofValue owner value).Says owner value where
  value_eq := rfl
  mem_names_iff name := by
    simp only [ofValue, List.mem_map, List.mem_filter, decide_eq_true_eq]
    constructor
    · rintro ⟨flag, ⟨hflag, hset⟩, rfl⟩
      exact ⟨flag, hflag, rfl, (and_mask_ne_zero_iff hflag).mp hset⟩
    · rintro ⟨flag, hflag, rfl, hset⟩
      exact ⟨flag, ⟨hflag, (and_mask_ne_zero_iff hflag).mpr hset⟩, rfl⟩
  names_sublist := List.filter_sublist.map _

/-- A number says one thing only. -/
theorem says_iff {f : AccessFlags} : f.Says owner value ↔ ofValue owner value = f := by
  constructor
  · intro h
    have hnodup := nodup_names owner
    have hsame := says_ofValue owner value
    have hnames : (ofValue owner value).names = f.names := by
      rw [← hnodup.perm_iff_eq_of_sublist hsame.names_sublist h.names_sublist,
        List.perm_ext_iff_of_nodup (hnodup.sublist hsame.names_sublist)
          (hnodup.sublist h.names_sublist)]
      intro name
      rw [hsame.mem_names_iff, h.mem_names_iff]
    obtain ⟨rfl, -, -⟩ := h
    exact congrArg (AccessFlags.mk f.value) hnames
  · rintro rfl
    exact says_ofValue owner value

end AccessFlags

namespace Raw

/-- There is a value for every item of a list as soon as there is one for each of them. -/
theorem exists_forall₂_iff {α β : Type} {R : α → β → Prop} {as : List α} :
    (∃ bs, List.Forall₂ R as bs) ↔ ∀ a ∈ as, ∃ b, R a b := by
  induction as with
  | nil => simp
  | cons a as ih =>
    rw [List.forall_mem_cons, ← ih]
    constructor
    · rintro ⟨bs, hall⟩
      cases hall with
      | cons head tail => exact ⟨⟨_, head⟩, ⟨_, tail⟩⟩
    · rintro ⟨⟨b, head⟩, ⟨bs, tail⟩⟩
      exact ⟨b :: bs, .cons head tail⟩

/-! ## Constants -/

/-- A constant as it is written behind its tag. -/
inductive Constant where
  | utf8 (content : Counted 2 UInt8)
  | integer (bits : U 4)
  | float (bits : U 4)
  | long (bits : U 8)
  | double (bits : U 8)
  | named (kind : NamedKind) (name : U 2)
  | string (value : U 2)
  | member (kind : MemberKind) (owner nameAndType : U 2)
  | nameAndType (name descriptor : U 2)
  | methodHandle (kind : U 1) (reference : U 2)
  | methodType (descriptor : U 2)
  | dynamic (kind : DynamicKind) (bootstrap nameAndType : U 2)

namespace Constant

/-- The constant that is written. -/
def value : Constant → Bytecode.Constant
  | utf8 content => .utf8 (ModifiedUtf8.decode content.items)
  | integer bits => .integer (Word.signed 4 bits.val)
  | float bits => .float bits.val.toUInt32
  | long bits => .long (Word.signed 8 bits.val)
  | double bits => .double bits.val.toUInt64
  | named kind name => .named kind name.val
  | string value => .string value.val
  | member kind owner type => .member kind owner.val type.val
  | nameAndType name descriptor => .nameAndType name.val descriptor.val
  | methodHandle kind reference => .methodHandle kind.val reference.val
  | methodType descriptor => .methodType descriptor.val
  | dynamic kind bootstrap type => .dynamic kind bootstrap.val type.val

/-- What follows the tag. -/
def payload : Constant → List UInt8
  | utf8 content => content.encodeBytes
  | integer bits | float bits => bits.encode
  | long bits | double bits => bits.encode
  | named _ index | string index | methodType index => index.encode
  | member _ first second | nameAndType first second | dynamic _ first second =>
    first.encode ++ second.encode
  | methodHandle kind reference => kind.encode ++ reference.encode

def encode (c : Constant) : List UInt8 := Word.bytes 1 c.value.kind.tag ++ c.payload

end Constant

/-! ## The constant pool -/

/-- The constants take up all indices from `index` to below `count`, and none of them starts later.
-/
def Fills (count : Nat) : Nat → List Bytecode.Constant → Prop
  | index, [] => count ≤ index
  | index, c :: cs => index < count ∧ Fills count (index + c.slots) cs

/-- One slot for each index that the constants take up: only the first one of a constant holds it.
-/
def slots (constants : List Bytecode.Constant) : List (Option Bytecode.Constant) :=
  constants.flatMap fun c ↦ some c :: List.replicate (c.slots - 1) none

theorem slots_cons (c : Bytecode.Constant) (cs : List Bytecode.Constant) :
    slots (c :: cs) = some c :: (List.replicate (c.slots - 1) none ++ slots cs) := rfl

/-- The constants of a class file, from index one on.  The count is one more than the last index. -/
structure Pool where
  count : U 2
  constants : List Constant
  fills : Fills count.val 1 (constants.map (·.value))

namespace Pool

def encode (p : Pool) : List UInt8 := p.count.encode ++ p.constants.flatMap (·.encode)

/-- The pool with every constant at its index and nothing at index zero. -/
def value (p : Pool) : Bytecode.Pool :=
  .ofSlots ((none :: slots (p.constants.map (·.value))).take p.count.val)

end Pool

/-! ## Attributes -/

/-- A name and a string of bytes. -/
structure Attribute where
  name : U 2
  info : Counted 4 UInt8

namespace Attribute

def encode (a : Attribute) : List UInt8 := a.name.encode ++ a.info.encodeBytes

/-- The attribute that is written, where names come from a pool. -/
structure Denotes (p : Bytecode.Pool) (a : Attribute) (result : Bytecode.Attribute) : Prop where
  name : p.Utf8At a.name.val result.name
  info : result.info = a.info.items

def Resolvable (p : Bytecode.Pool) (a : Attribute) : Prop := ∃ name, p.Utf8At a.name.val name

theorem exists_denotes_iff {p : Bytecode.Pool} {a : Attribute} :
    (∃ result, a.Denotes p result) ↔ a.Resolvable p := by
  constructor
  · rintro ⟨result, h⟩
    exact ⟨result.name, h.name⟩
  · rintro ⟨name, h⟩
    exact ⟨⟨name, a.info.items⟩, h, rfl⟩

theorem exists_denotes_all_iff {p : Bytecode.Pool} {as : List Attribute} :
    (∃ results, List.Forall₂ (Denotes p) as results) ↔ ∀ a ∈ as, a.Resolvable p := by
  simp only [exists_forall₂_iff, exists_denotes_iff]

end Attribute

/-! ## Members -/

/-- A field or method. -/
structure Member where
  accessFlags : U 2
  name : U 2
  descriptor : U 2
  attributes : Counted 2 Attribute

namespace Member

def encode (m : Member) : List UInt8 :=
  m.accessFlags.encode ++ (m.name.encode ++ (m.descriptor.encode ++
    m.attributes.encode Attribute.encode))

/-- The member that is written, where names come from a pool. -/
structure Denotes (owner : FlagOwner) (p : Bytecode.Pool) (m : Member)
    (result : Bytecode.Member) : Prop where
  accessFlags : result.accessFlags.Says owner m.accessFlags.val
  name : p.Utf8At m.name.val result.name
  descriptor : p.Utf8At m.descriptor.val result.descriptor
  attributes : List.Forall₂ (Attribute.Denotes p) m.attributes.items result.attributes

structure Resolvable (p : Bytecode.Pool) (m : Member) : Prop where
  name : ∃ name, p.Utf8At m.name.val name
  descriptor : ∃ descriptor, p.Utf8At m.descriptor.val descriptor
  attributes : ∀ a ∈ m.attributes.items, a.Resolvable p

theorem exists_denotes_iff {owner : FlagOwner} {p : Bytecode.Pool} {m : Member} :
    (∃ result, m.Denotes owner p result) ↔ m.Resolvable p := by
  constructor
  · rintro ⟨result, h⟩
    exact ⟨⟨_, h.name⟩, ⟨_, h.descriptor⟩, Attribute.exists_denotes_all_iff.mp ⟨_, h.attributes⟩⟩
  · rintro ⟨⟨name, hn⟩, ⟨descriptor, hd⟩, ha⟩
    obtain ⟨attributes, ha⟩ := Attribute.exists_denotes_all_iff.mpr ha
    exact ⟨⟨.ofValue owner m.accessFlags.val, name, descriptor, attributes⟩,
      AccessFlags.says_ofValue _ _, hn, hd, ha⟩

theorem exists_denotes_all_iff {owner : FlagOwner} {p : Bytecode.Pool} {ms : List Member} :
    (∃ results, List.Forall₂ (Denotes owner p) ms results) ↔ ∀ m ∈ ms, m.Resolvable p := by
  simp only [exists_forall₂_iff, exists_denotes_iff]

end Member

/-! ## Code attributes -/

/-- An entry of an exception table. -/
structure Handler where
  startPC : U 2
  endPC : U 2
  handlerPC : U 2
  catchType : U 2

namespace Handler

def encode (h : Handler) : List UInt8 :=
  h.startPC.encode ++ (h.endPC.encode ++ (h.handlerPC.encode ++ h.catchType.encode))

def value (h : Handler) : Bytecode.Handler :=
  ⟨h.startPC.val, h.endPC.val, h.handlerPC.val, h.catchType.val⟩

end Handler

/-- What the code attribute of a method holds. -/
structure CodeAttribute where
  maxStack : U 2
  maxLocals : U 2
  code : Counted 4 UInt8
  handlers : Counted 2 Handler
  attributes : Counted 2 Attribute

namespace CodeAttribute

def encode (c : CodeAttribute) : List UInt8 :=
  c.maxStack.encode ++ (c.maxLocals.encode ++ (c.code.encodeBytes ++
    (c.handlers.encode Handler.encode ++ c.attributes.encode Attribute.encode)))

/-- The code that is written, where names come from a pool. -/
structure Denotes (p : Bytecode.Pool) (c : CodeAttribute) (result : Bytecode.CodeAttribute) :
    Prop where
  maxStack : result.maxStack = c.maxStack.val
  maxLocals : result.maxLocals = c.maxLocals.val
  code : result.code = c.code.items
  handlers : result.handlers = c.handlers.items.map (·.value)
  attributes : List.Forall₂ (Attribute.Denotes p) c.attributes.items result.attributes

def Resolvable (p : Bytecode.Pool) (c : CodeAttribute) : Prop :=
  ∀ a ∈ c.attributes.items, a.Resolvable p

theorem exists_denotes_iff {p : Bytecode.Pool} {c : CodeAttribute} :
    (∃ result, c.Denotes p result) ↔ c.Resolvable p := by
  rw [Resolvable, ← Attribute.exists_denotes_all_iff]
  constructor
  · rintro ⟨result, h⟩
    exact ⟨_, h.attributes⟩
  · rintro ⟨attributes, ha⟩
    exact ⟨⟨_, _, _, _, attributes⟩, rfl, rfl, rfl, rfl, ha⟩

end CodeAttribute

/-! ## Classes -/

/-- A class file without its magic number. -/
structure ClassFile where
  minorVersion : U 2
  majorVersion : U 2
  pool : Pool
  accessFlags : U 2
  thisClass : U 2
  superClass : U 2
  interfaces : Counted 2 (U 2)
  fields : Counted 2 Member
  methods : Counted 2 Member
  attributes : Counted 2 Attribute

namespace ClassFile

def encode (s : ClassFile) : List UInt8 :=
  [0xCA, 0xFE, 0xBA, 0xBE] ++ (s.minorVersion.encode ++ (s.majorVersion.encode ++
    (s.pool.encode ++ (s.accessFlags.encode ++ (s.thisClass.encode ++ (s.superClass.encode ++
      (s.interfaces.encode U.encode ++ (s.fields.encode Member.encode ++
        (s.methods.encode Member.encode ++ s.attributes.encode Attribute.encode)))))))))

/-- The class that is written: every index is replaced by what it refers to. -/
structure Denotes (s : ClassFile) (result : Bytecode.ClassFile) : Prop where
  minorVersion : result.minorVersion = s.minorVersion.val
  majorVersion : result.majorVersion = s.majorVersion.val
  pool : result.pool = s.pool.value
  accessFlags : result.accessFlags.Says .ofClass s.accessFlags.val
  thisClass : s.pool.value.ClassAt s.thisClass.val result.thisClass
  superClass : s.pool.value.SuperAt s.superClass.val result.superClass
  interfaces :
    List.Forall₂ (fun i name ↦ s.pool.value.ClassAt i.val name) s.interfaces.items result.interfaces
  fields : List.Forall₂ (Member.Denotes .ofField s.pool.value) s.fields.items result.fields
  methods : List.Forall₂ (Member.Denotes .ofMethod s.pool.value) s.methods.items result.methods
  attributes : List.Forall₂ (Attribute.Denotes s.pool.value) s.attributes.items result.attributes

structure Resolvable (s : ClassFile) : Prop where
  thisClass : ∃ name, s.pool.value.ClassAt s.thisClass.val name
  superClass : s.superClass.val ≠ 0 → ∃ name, s.pool.value.ClassAt s.superClass.val name
  interfaces : ∀ i ∈ s.interfaces.items, ∃ name, s.pool.value.ClassAt i.val name
  fields : ∀ m ∈ s.fields.items, m.Resolvable s.pool.value
  methods : ∀ m ∈ s.methods.items, m.Resolvable s.pool.value
  attributes : ∀ a ∈ s.attributes.items, a.Resolvable s.pool.value

theorem exists_superAt_iff {p : Bytecode.Pool} {index : Int} :
    (∃ name, p.SuperAt index name) ↔ (index ≠ 0 → ∃ name, p.ClassAt index name) := by
  constructor
  · rintro ⟨-, ⟨rfl, -⟩ | ⟨-, text, -, h⟩⟩ hne
    · exact absurd rfl hne
    · exact ⟨text, h⟩
  · intro h
    by_cases hi : index = 0
    · exact ⟨none, .inl ⟨hi, rfl⟩⟩
    · obtain ⟨name, hname⟩ := h hi
      exact ⟨some name, .inr ⟨hi, name, rfl, hname⟩⟩

theorem exists_denotes_iff {s : ClassFile} : (∃ result, s.Denotes result) ↔ s.Resolvable := by
  constructor
  · rintro ⟨result, h⟩
    refine ⟨⟨_, h.thisClass⟩, fun hne ↦ ?_, exists_forall₂_iff.mp ⟨_, h.interfaces⟩,
      Member.exists_denotes_all_iff.mp ⟨_, h.fields⟩,
      Member.exists_denotes_all_iff.mp ⟨_, h.methods⟩,
      Attribute.exists_denotes_all_iff.mp ⟨_, h.attributes⟩⟩
    exact exists_superAt_iff.mp ⟨_, h.superClass⟩ (by exact_mod_cast hne)
  · intro h
    obtain ⟨thisClass, hthis⟩ := h.thisClass
    obtain ⟨superClass, hsuper⟩ := exists_superAt_iff.mpr fun hne ↦
      h.superClass (by exact_mod_cast hne)
    obtain ⟨interfaces, hinterfaces⟩ := exists_forall₂_iff.mpr h.interfaces
    obtain ⟨fields, hfields⟩ := Member.exists_denotes_all_iff.mpr h.fields
    obtain ⟨methods, hmethods⟩ := Member.exists_denotes_all_iff.mpr h.methods
    obtain ⟨attributes, hattributes⟩ := Attribute.exists_denotes_all_iff.mpr h.attributes
    exact ⟨⟨_, _, _, _, thisClass, superClass, interfaces, fields, methods, attributes⟩, rfl, rfl,
      rfl, AccessFlags.says_ofValue _ _, hthis, hsuper, hinterfaces, hfields, hmethods, hattributes⟩

end ClassFile

end Raw

end Bytecode
