import Bytecode.Proofs.Pool.Layout

/-!
# The layout of class files

A window is read as a class file exactly where an encoded raw class file stands at its front whose
references can be resolved, and what is read is the class that the raw class file denotes.  The same
holds of code attributes.
-/

namespace Bytecode

open Reader FormatReader Raw

/-! ## References -/

/-- A reference takes up nothing. -/
theorem reads_resolve {α β : Type} {x : Except PoolError α} {f : α → FormatReader β}
    {P : α → β → Prop} (hf : ∀ a, Reads (f a) fun c b ↦ P a c ∧ b = []) :
    Reads (resolve x >>= f) fun c b ↦ (∃ a, x = .ok a ∧ P a c) ∧ b = [] := by
  cases x with
  | ok a =>
    refine ((Reads.pure a).bind hf).congr fun c b ↦ ?_
    constructor
    · rintro ⟨_, _, _, rfl, ⟨rfl, rfl⟩, hc, rfl⟩
      exact ⟨⟨_, rfl, hc⟩, rfl⟩
    · rintro ⟨⟨_, ⟨⟩, hc⟩, rfl⟩
      exact ⟨a, [], [], rfl, ⟨rfl, rfl⟩, hc, rfl⟩
  | error e =>
    refine ((Reads.fail _).bind hf).congr fun c b ↦ ?_
    constructor
    · rintro ⟨_, _, _, -, ⟨⟩, -⟩
    · rintro ⟨⟨_, ⟨⟩, -⟩, -⟩

theorem superName_eq_ok_iff {p : Pool} {index : Int} {name : Option Text} :
    ClassFile.superName p index = .ok name ↔ p.SuperAt index name := by
  rw [ClassFile.superName, Pool.SuperAt]
  by_cases hi : index = 0
  · simp [hi, eq_comm]
  · rw [if_neg hi]
    simp only [hi, false_and, ne_eq, not_false_eq_true, true_and, false_or,
      ← Pool.className_eq_ok_iff]
    cases p.className index with
    | ok text => simp [eq_comm]
    | error e => simp

theorem except_mapM_eq_ok {ε α β : Type} {f : α → Except ε β} {as : List α} {bs : List β} :
    as.mapM f = .ok bs ↔ List.Forall₂ (fun a b ↦ f a = .ok b) as bs := by
  induction as generalizing bs with
  | nil =>
    rw [List.mapM_nil, List.forall₂_nil_left_iff]
    constructor
    · rintro ⟨⟩
      rfl
    · rintro rfl
      rfl
  | cons a as ih =>
    simp only [List.mapM_cons, except_bind_eq_ok, ih, List.forall₂_cons_left_iff]
    constructor
    · rintro ⟨b, h, bs, hs, ⟨⟩⟩
      exact ⟨b, bs, h, hs, rfl⟩
    · rintro ⟨b, bs, h, hs, rfl⟩
      exact ⟨b, h, bs, hs, rfl⟩

theorem forall₂_value_iff {ρ α : Type} {value : ρ → α} {rs : List ρ} {as : List α} :
    List.Forall₂ (fun r a ↦ value r = a) rs as ↔ as = rs.map value := by
  rw [← List.forall₂_map_left_iff, List.forall₂_eq_eq_eq, eq_comm]

/-! ## Attributes and members -/

theorem AccessFlags.decodes_read {ε : Type} (owner : FlagOwner) :
    Decodes (AccessFlags.read owner : Reader ε _) U.encode
      fun (x : U 2) f ↦ f.Says owner x.val := by
  simp only [says_iff]
  exact (decodes_word 2).map (AccessFlags.ofValue owner)

theorem Attribute.decodes_read (p : Pool) :
    Decodes (Attribute.read p) Raw.Attribute.encode (Raw.Attribute.Denotes p) := by
  refine (decodes_readIndex.bind fun name ↦ (decodes_bytes 4).finish fun info ↦
    reads_resolve fun name ↦ Reads.pure (Attribute.mk name info)).congr
      (f := fun r : Raw.Attribute ↦ (r.name, r.info)) (fun ⟨name, info⟩ ↦ ⟨⟨name, info⟩, rfl⟩)
      (fun _ ↦ rfl) fun r a ↦ ?_
  simp only [Pool.utf8_eq_ok_iff, exists_eq_left']
  constructor
  · rintro ⟨text, h, rfl⟩
    exact ⟨h, rfl⟩
  · rintro ⟨hn, hi⟩
    exact ⟨_, hn, by rw [← hi]⟩

theorem Member.decodes_read (owner : FlagOwner) (p : Pool) :
    Decodes (Member.read owner p) Raw.Member.encode (Raw.Member.Denotes owner p) := by
  refine ((AccessFlags.decodes_read owner).bind fun flags ↦ decodes_readIndex.bind fun name ↦
    decodes_readIndex.bind fun descriptor ↦
      (Attribute.decodes_read p).repeated.finish fun attributes ↦
        reads_resolve fun name ↦ reads_resolve fun descriptor ↦
          Reads.pure (Member.mk flags name descriptor attributes)).congr
      (f := fun r : Raw.Member ↦ (r.accessFlags, r.name, r.descriptor, r.attributes))
      (fun ⟨flags, name, descriptor, attributes⟩ ↦ ⟨⟨flags, name, descriptor, attributes⟩, rfl⟩)
      (fun _ ↦ rfl) fun r m ↦ ?_
  simp only [Pool.utf8_eq_ok_iff, exists_eq_left']
  constructor
  · rintro ⟨flags, hf, attributes, ha, name, hn, descriptor, hd, rfl⟩
    exact ⟨hf, hn, hd, ha⟩
  · rintro ⟨hf, hn, hd, ha⟩
    exact ⟨_, hf, _, ha, _, hn, _, hd, rfl⟩

/-! ## Code attributes -/

theorem Handler.decodes_read :
    Decodes Handler.read Raw.Handler.encode fun r h ↦ r.value = h := by
  refine ((decodes_word 2).bind fun startPC ↦ (decodes_word 2).bind fun endPC ↦
    (decodes_word 2).bind fun handlerPC ↦
      (decodes_word 2).map (Handler.mk startPC endPC handlerPC)).congr
      (f := fun r : Raw.Handler ↦ (r.startPC, r.endPC, r.handlerPC, r.catchType))
      (fun ⟨startPC, endPC, handlerPC, catchType⟩ ↦ ⟨⟨startPC, endPC, handlerPC, catchType⟩, rfl⟩)
      (fun _ ↦ rfl) fun r h ↦ ?_
  simp only [exists_eq_left', Raw.Handler.value]

theorem CodeAttribute.decodes_read (p : Pool) :
    Decodes (CodeAttribute.read p) Raw.CodeAttribute.encode (Raw.CodeAttribute.Denotes p) := by
  refine ((decodes_word 2).bind fun maxStack ↦ (decodes_word 2).bind fun maxLocals ↦
    (decodes_bytes 4).bind fun code ↦ Handler.decodes_read.repeated.bind fun handlers ↦
      (Attribute.decodes_read p).repeated.finish fun attributes ↦
        Reads.pure (CodeAttribute.mk maxStack maxLocals code handlers attributes)).congr
      (f := fun r : Raw.CodeAttribute ↦
        (r.maxStack, r.maxLocals, r.code, r.handlers, r.attributes))
      (fun ⟨maxStack, maxLocals, code, handlers, attributes⟩ ↦
        ⟨⟨maxStack, maxLocals, code, handlers, attributes⟩, rfl⟩)
      (fun _ ↦ rfl) fun r c ↦ ?_
  simp only [exists_eq_left', forall₂_value_iff]
  constructor
  · rintro ⟨handlers, rfl, attributes, ha, rfl⟩
    exact ⟨rfl, rfl, rfl, rfl, ha⟩
  · rintro ⟨hs, hl, hc, hh, ha⟩
    exact ⟨_, rfl, _, ha, by rw [← hs, ← hl, ← hc, ← hh]⟩

/-! ## Classes -/

theorem ClassFile.decodes_readMagic :
    Decodes ClassFile.readMagic (fun _ : Unit ↦ [0xCA, 0xFE, 0xBA, 0xBE]) fun _ _ ↦ True := by
  have hbody : ∀ n, Reads (if n = ClassFile.magic then pure () else fail .badMagic :
      FormatReader Unit) fun _ b ↦ n = ClassFile.magic ∧ b = [] := by
    intro n
    split
    · next h => exact (Reads.pure ()).congr fun _ b ↦ by simp [h]
    · next h => exact (Reads.fail _).congr fun _ b ↦ by simp [h]
  have hmagic : Word.bytes 4 ClassFile.magic = [0xCA, 0xFE, 0xBA, 0xBE] := by decide
  refine Reads.congr ((decodes_word 4).finish hbody) fun _ b ↦ ?_
  simp only [exists_eq_left']
  constructor
  · rintro ⟨x, hx, rfl⟩
    exact ⟨(), trivial, by rw [U.encode, hx, hmagic]⟩
  · rintro ⟨-, -, rfl⟩
    exact ⟨⟨ClassFile.magic, by decide⟩, rfl, hmagic.symm⟩

theorem ClassFile.decodes_read :
    Decodes ClassFile.read Raw.ClassFile.encode Raw.ClassFile.Denotes := by
  refine (decodes_readMagic.bind fun _ ↦ (decodes_word 2).bind fun minor ↦
    (decodes_word 2).bind fun major ↦ Pool.decodes_read.bind fun pool ↦
      (AccessFlags.decodes_read .ofClass).bind fun flags ↦ decodes_readIndex.bind fun this ↦
        decodes_readIndex.bind fun super ↦ decodes_readIndex.repeated.bind fun interfaces ↦
          (Member.decodes_read .ofField pool).repeated.bind fun fields ↦
            (Member.decodes_read .ofMethod pool).repeated.bind fun methods ↦
              (Attribute.decodes_read pool).repeated.finish fun attributes ↦
                reads_resolve fun this ↦ reads_resolve fun super ↦ reads_resolve fun interfaces ↦
                  Reads.pure (ClassFile.mk minor major pool flags this super interfaces fields
                    methods attributes)).congr
      (f := fun s : Raw.ClassFile ↦ ((), s.minorVersion, s.majorVersion, s.pool, s.accessFlags,
        s.thisClass, s.superClass, s.interfaces, s.fields, s.methods, s.attributes))
      (fun ⟨_, minor, major, pool, flags, this, super, interfaces, fields, methods, attributes⟩ ↦
        ⟨⟨minor, major, pool, flags, this, super, interfaces, fields, methods, attributes⟩, rfl⟩)
      (fun _ ↦ rfl) fun s c ↦ ?_
  simp only [exists_eq_left', exists_const, true_and, Pool.className_eq_ok_iff,
    superName_eq_ok_iff, except_mapM_eq_ok, forall₂_value_iff]
  constructor
  · rintro ⟨flags, hflags, interfaces, rfl, fields, hfields, methods, hmethods, attributes,
      hattributes, this, hthis, super, hsuper, names, hnames, rfl⟩
    exact ⟨rfl, rfl, rfl, hflags, hthis, hsuper, List.forall₂_map_left_iff.mp hnames, hfields,
      hmethods, hattributes⟩
  · intro h
    refine ⟨_, h.accessFlags, _, rfl, _, h.fields, _, h.methods, _, h.attributes, _, h.thisClass, _,
      h.superClass, _, List.forall₂_map_left_iff.mpr h.interfaces, ?_⟩
    rw [← h.minorVersion, ← h.majorVersion, ← h.pool]

/-- Class files and code attributes are read exactly where their encodings stand with references
that can be resolved, whatever follows, and what is read is what the encoding denotes. -/
theorem read_eq_ok_iff_encode (w : Window) :
    ((∃ c n, ClassFile.read w = .ok (c, n)) ↔
      ∃ (s : Raw.ClassFile) (rest : List UInt8), w.toList = s.encode ++ rest ∧ s.Resolvable) ∧
    (∀ c n, ClassFile.read w = .ok (c, n) ↔
      ∃ (s : Raw.ClassFile) (rest : List UInt8),
        w.toList = s.encode ++ rest ∧ n = s.encode.length ∧ s.Denotes c) ∧
    ∀ p : Pool,
      ((∃ c n, CodeAttribute.read p w = .ok (c, n)) ↔
        ∃ (s : Raw.CodeAttribute) (rest : List UInt8),
          w.toList = s.encode ++ rest ∧ s.Resolvable p) ∧
      ∀ c n, CodeAttribute.read p w = .ok (c, n) ↔
        ∃ (s : Raw.CodeAttribute) (rest : List UInt8),
          w.toList = s.encode ++ rest ∧ n = s.encode.length ∧ s.Denotes p c := by
  refine ⟨?_, fun c n ↦ ClassFile.decodes_read.eq_ok_iff, fun p ↦ ⟨?_, fun c n ↦ ?_⟩⟩
  · simp only [ClassFile.decodes_read.exists_ok_iff, Raw.ClassFile.exists_denotes_iff]
  · simp only [(CodeAttribute.decodes_read p).exists_ok_iff, Raw.CodeAttribute.exists_denotes_iff]
  · exact (CodeAttribute.decodes_read p).eq_ok_iff

end Bytecode
