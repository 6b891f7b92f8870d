import Bytecode.Operands.Reader
import Bytecode.Proofs.Assembly.Field
import Bytecode.Proofs.Catalog
import Bytecode.Proofs.Reader.Incremental

/-!
# The layout of operands

`Layout position shape o b` is the grammar of operands: `b` is what the operands `o` of an
instruction of the given shape look like when they start at `position` of a code array.  Bytes that
no operand depends on (padding, and what follows the fields of two of the calls) are left open.  The
reader of operands accepts exactly this grammar.
-/

namespace Bytecode.Operands

open Reader Assembly

/-- What can stand behind a wide prefix and the opcode after it. -/
inductive Widened (opcode : Nat) : Operands → List UInt8 → Prop where
  | localIndex {target : Entry} {index : Nat} {b : List UInt8}
    (ht : Catalog.standard.lookup opcode = some target) (hw : target.widening = .localIndex)
    (h : Field.u2.write index = .ok b) :
    Widened opcode (.wideLocal target index) b
  | increment {target : Entry} {index : Nat} {amount : Int} {b₁ b₂ : List UInt8}
    (ht : Catalog.standard.lookup opcode = some target) (hw : target.widening = .increment)
    (h₁ : Field.u2.write index = .ok b₁) (h₂ : Field.s2.write amount = .ok b₂) :
    Widened opcode (.wideIncrement target index amount) (b₁ ++ b₂)
  | unsupported (hw : ∀ e, Catalog.standard.lookup opcode = some e → e.widening = .unsupported) :
    Widened opcode (.wideUnknown opcode) []

/-- The byte strings that operands of a shape can stand for. -/
inductive Layout (position : Nat) : Shape → Operands → List UInt8 → Prop where
  | none : Layout position .none .none []
  | u8 {value : Nat} {b : List UInt8} (h : Field.u1.write value = .ok b) :
    Layout position .u8 (.immediate value) b
  | u16 {value : Nat} {b : List UInt8} (h : Field.u2.write value = .ok b) :
    Layout position .u16 (.immediate value) b
  | s16 {value : Int} {b : List UInt8} (h : Field.s2.write value = .ok b) :
    Layout position .s16 (.immediate value) b
  | s32 {value : Int} {b : List UInt8} (h : Field.s4.write value = .ok b) :
    Layout position .s32 (.immediate value) b
  | localIndexAndConst {index : Nat} {amount : Int} {b₁ b₂ : List UInt8}
    (h₁ : Field.u1.write index = .ok b₁) (h₂ : Field.s1.write amount = .ok b₂) :
    Layout position .localIndexAndConst (.increment index amount) (b₁ ++ b₂)
  | constantPoolU8 {index : Nat} {b : List UInt8} (h : Field.u1.write index = .ok b) :
    Layout position .constantPoolU8 (.constant index) b
  | constantPoolU16 {index : Nat} {b : List UInt8} (h : Field.u2.write index = .ok b) :
    Layout position .constantPoolU16 (.constant index) b
  | invokeInterface {index count : Nat} {b₁ b₂ skipped : List UInt8}
    (h₁ : Field.u2.write index = .ok b₁) (h₂ : Field.u1.write count = .ok b₂)
    (hs : skipped.length = 1) :
    Layout position .invokeInterface (.interfaceCall index count) (b₁ ++ (b₂ ++ skipped))
  | invokeDynamic {index : Nat} {b skipped : List UInt8} (h : Field.u2.write index = .ok b)
    (hs : skipped.length = 2) :
    Layout position .invokeDynamic (.constant index) (b ++ skipped)
  | newArrayPrimitive {typeCode : Nat} {b : List UInt8} (h : Field.u1.write typeCode = .ok b) :
    Layout position .newArrayPrimitive (.arrayOf typeCode) b
  | multiArray {index dimensions : Nat} {b₁ b₂ : List UInt8}
    (h₁ : Field.u2.write index = .ok b₁) (h₂ : Field.u1.write dimensions = .ok b₂) :
    Layout position .multiArray (.multiArray index dimensions) (b₁ ++ b₂)
  | tableSwitch {default low high : Int} {jumps : List Int} {skipped b : List UInt8}
    (hs : skipped.length = padding position) (hn : jumps.length = (high - low + 1).toNat)
    (h : Words (default :: low :: high :: jumps) b) :
    Layout position .tableSwitch (.tableSwitch default low high jumps) (skipped ++ b)
  | lookupSwitch {default count : Int} {cases : List (Int × Int)} {skipped b : List UInt8}
    (hs : skipped.length = padding position) (hn : cases.length = count.toNat)
    (h : Words (default :: count :: cases.flatMap fun (value, jump) ↦ [value, jump]) b) :
    Layout position .lookupSwitch (.lookupSwitch default count cases) (skipped ++ b)
  | widePrefixed {opcode : Nat} {o : Operands} {b₁ b₂ : List UInt8}
    (h : Field.u1.write opcode = .ok b₁) (ho : Widened opcode o b₂) :
    Layout position .widePrefixed o (b₁ ++ b₂)

/-! ## Switch tables -/

theorem reads_align (position : Nat) :
    Reads (align position) fun _ b ↦ b.length = padding position :=
  (reads_of_guard (g := fun _ ↦ ()) fun w ↦ by rw [align]).congr fun _ _ ↦ by simp

theorem length_sequence {α : Type} {L : α → List UInt8 → Prop} {width : Nat}
    (hL : ∀ a b, L a b → b.length = width) {as : List α} {b : List UInt8} (h : Sequence L as b) :
    b.length = width * as.length := by
  induction h with
  | nil => rfl
  | cons head _ ih => rw [List.length_append, hL _ _ head, ih, List.length_cons, Nat.mul_add_one,
      Nat.add_comm]

/-- That the whole table is asked for first does not change what is read. -/
theorem reads_entries {α : Type} {p : Reader Empty α} {L : α → List UInt8 → Prop} {width : Nat}
    (hp : Reads p L) (hL : ∀ a b, L a b → b.length = width) (n : Nat) :
    Reads (entries width n p) fun as b ↦ as.length = n ∧ Sequence L as b := by
  intro w as k
  have htimes := reads_times hp n (w.drop 0) as k
  rw [Window.toList_drop, List.drop_zero] at htimes
  rw [entries, bind_eq_ok, ← htimes]
  constructor
  · rintro ⟨⟨⟩, m, k, hm, -, hk, rfl⟩
    obtain ⟨-, rfl⟩ := require_eq_ok.mp hm
    rwa [Nat.zero_add]
  · intro h
    obtain ⟨b, rest, hw, -, hn, hs⟩ := htimes.mp h
    have hsize : w.size = b.length + rest.length := by rw [← Window.length_toList, hw]; simp
    have hlen := length_sequence hL hs
    rw [hn] at hlen
    exact ⟨(), 0, k, require_eq_ok.mpr ⟨by omega, rfl⟩, Nat.zero_le _, h, Nat.zero_add k⟩

theorem reads_readTableSwitch (position : Nat) :
    Reads (readTableSwitch position) (Layout position .tableSwitch) := by
  refine ((reads_align position).bind fun _ ↦ reads_s4.bind fun default ↦ reads_s4.bind fun low ↦
    reads_s4.bind fun high ↦
      (reads_entries reads_s4 (fun _ _ ↦ Field.length_of_write) _).map
        (Operands.tableSwitch default low high)).congr fun o b ↦ ?_
  constructor
  · rintro ⟨-, skipped, -, rfl, hs, default, b₁, -, rfl, h₁, low, b₂, -, rfl, h₂, high, b₃, b₄, rfl,
      h₃, jumps, ⟨hn, h₄⟩, rfl⟩
    exact .tableSwitch hs hn (.cons h₁ (.cons h₂ (.cons h₃ h₄)))
  · intro hl
    cases hl with
    | tableSwitch hs hn h =>
      obtain _ | ⟨h₁, _ | ⟨h₂, _ | ⟨h₃, h₄⟩⟩⟩ := h
      exact ⟨(), _, _, rfl, hs, _, _, _, rfl, h₁, _, _, _, rfl, h₂, _, _, _, rfl, h₃, _, ⟨hn, h₄⟩,
        rfl⟩

theorem reads_readCase :
    Reads readCase fun c b ↦
      ∃ b₁ b₂, b = b₁ ++ b₂ ∧ Field.s4.write c.1 = .ok b₁ ∧ Field.s4.write c.2 = .ok b₂ := by
  refine (reads_s4.bind fun value ↦ reads_s4.map fun jump ↦ (value, jump)).congr fun c b ↦ ?_
  constructor
  · rintro ⟨value, b₁, b₂, rfl, h₁, jump, h₂, rfl⟩
    exact ⟨b₁, b₂, rfl, h₁, h₂⟩
  · rintro ⟨b₁, b₂, rfl, h₁, h₂⟩
    exact ⟨c.1, b₁, b₂, rfl, h₁, c.2, h₂, rfl⟩

/-- The cases of a switch are twice as many words. -/
theorem sequence_cases_iff {cases : List (Int × Int)} {b : List UInt8} :
    Sequence (fun (c : Int × Int) b ↦
      ∃ b₁ b₂, b = b₁ ++ b₂ ∧ Field.s4.write c.1 = .ok b₁ ∧ Field.s4.write c.2 = .ok b₂) cases b ↔
        Words (cases.flatMap fun (value, jump) ↦ [value, jump]) b := by
  induction cases generalizing b with
  | nil =>
    constructor
    · rintro ⟨⟩
      exact .nil
    · rintro ⟨⟩
      exact .nil
  | cons c cases ih =>
    constructor
    · rintro (_ | ⟨⟨b₁, b₂, rfl, h₁, h₂⟩, h⟩)
      rw [List.append_assoc]
      exact .cons h₁ (.cons h₂ (ih.mp h))
    · rintro (_ | ⟨h₁, _ | ⟨h₂, h⟩⟩)
      rw [← List.append_assoc]
      exact .cons ⟨_, _, rfl, h₁, h₂⟩ (ih.mpr h)

theorem reads_readLookupSwitch (position : Nat) :
    Reads (readLookupSwitch position) (Layout position .lookupSwitch) := by
  have hcase : ∀ (c : Int × Int) b, (∃ b₁ b₂, b = b₁ ++ b₂ ∧ Field.s4.write c.1 = .ok b₁ ∧
      Field.s4.write c.2 = .ok b₂) → b.length = 8 := by
    rintro c _ ⟨b₁, b₂, rfl, h₁, h₂⟩
    rw [List.length_append, Field.length_of_write h₁, Field.length_of_write h₂, Field.width]
  refine ((reads_align position).bind fun _ ↦ reads_s4.bind fun default ↦ reads_s4.bind fun count ↦
    (reads_entries reads_readCase hcase _).map (Operands.lookupSwitch default count)).congr
      fun o b ↦ ?_
  constructor
  · rintro ⟨-, skipped, -, rfl, hs, default, b₁, -, rfl, h₁, count, b₂, b₃, rfl, h₂, cases,
      ⟨hn, h₃⟩, rfl⟩
    exact .lookupSwitch hs hn (.cons h₁ (.cons h₂ (sequence_cases_iff.mp h₃)))
  · intro hl
    cases hl with
    | lookupSwitch hs hn h =>
      obtain _ | ⟨h₁, _ | ⟨h₂, h₃⟩⟩ := h
      exact ⟨(), _, _, rfl, hs, _, _, _, rfl, h₁, _, _, _, rfl, h₂, _,
        ⟨hn, sequence_cases_iff.mpr h₃⟩, rfl⟩

/-! ## The wide prefix -/

theorem reads_widened (opcode : Nat) {target : Entry}
    (ht : Catalog.standard.lookup opcode = some target) :
    Reads (match target.widening with
      | .localIndex => do
        let index ← u2
        pure (.wideLocal target index)
      | .increment => do
        let index ← u2
        let amount ← s2
        pure (.wideIncrement target index amount)
      | .unsupported => pure (.wideUnknown opcode) : Reader Empty Operands) (Widened opcode) := by
  have hunique : ∀ {target'}, Catalog.standard.lookup opcode = some target' → target' = target :=
    fun ht' ↦ Option.some.inj (ht'.symm.trans ht)
  cases hw : target.widening with
  | localIndex =>
    refine (reads_u2.map _).congr fun o b ↦ ?_
    constructor
    · rintro ⟨index, h, rfl⟩
      exact .localIndex ht hw h
    · rintro (⟨ht', -, h⟩ | ⟨ht', hw', -, -⟩ | hw')
      · exact ⟨_, h, by rw [hunique ht']⟩
      · rw [hunique ht', hw] at hw'
        cases hw'
      · rw [hw' target ht] at hw
        cases hw
  | increment =>
    refine (reads_u2.bind fun index ↦ reads_s2.map (Operands.wideIncrement target index)).congr
      fun o b ↦ ?_
    constructor
    · rintro ⟨index, b₁, b₂, rfl, h₁, amount, h₂, rfl⟩
      exact .increment ht hw h₁ h₂
    · rintro (⟨ht', hw', -⟩ | ⟨ht', -, h₁, h₂⟩ | hw')
      · rw [hunique ht', hw] at hw'
        cases hw'
      · exact ⟨_, _, _, rfl, h₁, _, h₂, by rw [hunique ht']⟩
      · rw [hw' target ht] at hw
        cases hw
  | unsupported =>
    refine (Reads.pure _).congr fun o b ↦ ?_
    constructor
    · rintro ⟨rfl, rfl⟩
      exact .unsupported fun e he ↦ by rw [hunique he, hw]
    · rintro (⟨ht', hw', -⟩ | ⟨ht', hw', -, -⟩ | -)
      · rw [hunique ht', hw] at hw'
        cases hw'
      · rw [hunique ht', hw] at hw'
        cases hw'
      · exact ⟨rfl, rfl⟩

theorem reads_readWide (position : Nat) : Reads readWide (Layout position .widePrefixed) := by
  refine (reads_u1.bind (M := Widened) fun opcode ↦ ?_).congr fun o b ↦ ?_
  · cases ht : Catalog.standard.lookup opcode with
    | some target => exact reads_widened opcode ht
    | none =>
      refine (Reads.pure _).congr fun o b ↦ ?_
      constructor
      · rintro ⟨rfl, rfl⟩
        exact .unsupported fun e he ↦ by rw [ht] at he; cases he
      · rintro (⟨ht', -, -⟩ | ⟨ht', -, -, -⟩ | -)
        · rw [ht] at ht'
          cases ht'
        · rw [ht] at ht'
          cases ht'
        · exact ⟨rfl, rfl⟩
  · constructor
    · rintro ⟨opcode, b₁, b₂, rfl, h, ho⟩
      exact .widePrefixed h ho
    · intro hl
      cases hl with
      | widePrefixed h ho => exact ⟨_, _, _, rfl, h, ho⟩

/-! ## All shapes -/

/-- The reader of operands accepts exactly the grammar. -/
theorem reads_read (position : Nat) (shape : Shape) :
    Reads (read position shape) (Layout position shape) := by
  cases shape with
  | none =>
    refine (Reads.pure _).congr fun o b ↦ ⟨?_, ?_⟩
    · rintro ⟨rfl, rfl⟩
      exact .none
    · rintro ⟨⟩
      exact ⟨rfl, rfl⟩
  | u8 =>
    refine (reads_u1.map _).congr fun o b ↦ ⟨?_, ?_⟩
    · rintro ⟨value, h, rfl⟩
      exact .u8 h
    · intro hl
      cases hl with
      | u8 h => exact ⟨_, h, rfl⟩
  | u16 =>
    refine (reads_u2.map _).congr fun o b ↦ ⟨?_, ?_⟩
    · rintro ⟨value, h, rfl⟩
      exact .u16 h
    · intro hl
      cases hl with
      | u16 h => exact ⟨_, h, rfl⟩
  | s16 =>
    refine (reads_s2.map _).congr fun o b ↦ ⟨?_, ?_⟩
    · rintro ⟨value, h, rfl⟩
      exact .s16 h
    · intro hl
      cases hl with
      | s16 h => exact ⟨_, h, rfl⟩
  | s32 =>
    refine (reads_s4.map _).congr fun o b ↦ ⟨?_, ?_⟩
    · rintro ⟨value, h, rfl⟩
      exact .s32 h
    · intro hl
      cases hl with
      | s32 h => exact ⟨_, h, rfl⟩
  | localIndexAndConst =>
    refine (reads_u1.bind fun index ↦ reads_s1.map (Operands.increment index)).congr
      fun o b ↦ ⟨?_, ?_⟩
    · rintro ⟨index, b₁, b₂, rfl, h₁, amount, h₂, rfl⟩
      exact .localIndexAndConst h₁ h₂
    · intro hl
      cases hl with
      | localIndexAndConst h₁ h₂ => exact ⟨_, _, _, rfl, h₁, _, h₂, rfl⟩
  | constantPoolU8 =>
    refine (reads_u1.map _).congr fun o b ↦ ⟨?_, ?_⟩
    · rintro ⟨index, h, rfl⟩
      exact .constantPoolU8 h
    · intro hl
      cases hl with
      | constantPoolU8 h => exact ⟨_, h, rfl⟩
  | constantPoolU16 =>
    refine (reads_u2.map _).congr fun o b ↦ ⟨?_, ?_⟩
    · rintro ⟨index, h, rfl⟩
      exact .constantPoolU16 h
    · intro hl
      cases hl with
      | constantPoolU16 h => exact ⟨_, h, rfl⟩
  | invokeInterface =>
    refine (reads_u2.bind fun index ↦ reads_u1.bind fun count ↦
      (reads_skip 1).map fun _ ↦ Operands.interfaceCall index count).congr fun o b ↦ ⟨?_, ?_⟩
    · rintro ⟨index, b₁, -, rfl, h₁, count, b₂, skipped, rfl, h₂, -, hs, rfl⟩
      exact .invokeInterface h₁ h₂ hs
    · intro hl
      cases hl with
      | invokeInterface h₁ h₂ hs => exact ⟨_, _, _, rfl, h₁, _, _, _, rfl, h₂, (), hs, rfl⟩
  | invokeDynamic =>
    refine (reads_u2.bind fun index ↦ (reads_skip 2).map fun _ ↦ Operands.constant index).congr
      fun o b ↦ ⟨?_, ?_⟩
    · rintro ⟨index, b₁, skipped, rfl, h, -, hs, rfl⟩
      exact .invokeDynamic h hs
    · intro hl
      cases hl with
      | invokeDynamic h hs => exact ⟨_, _, _, rfl, h, (), hs, rfl⟩
  | newArrayPrimitive =>
    refine (reads_u1.map _).congr fun o b ↦ ⟨?_, ?_⟩
    · rintro ⟨typeCode, h, rfl⟩
      exact .newArrayPrimitive h
    · intro hl
      cases hl with
      | newArrayPrimitive h => exact ⟨_, h, rfl⟩
  | multiArray =>
    refine (reads_u2.bind fun index ↦ reads_u1.map (Operands.multiArray index)).congr
      fun o b ↦ ⟨?_, ?_⟩
    · rintro ⟨index, b₁, b₂, rfl, h₁, dimensions, h₂, rfl⟩
      exact .multiArray h₁ h₂
    · intro hl
      cases hl with
      | multiArray h₁ h₂ => exact ⟨_, _, _, rfl, h₁, _, h₂, rfl⟩
  | tableSwitch => exact reads_readTableSwitch position
  | lookupSwitch => exact reads_readLookupSwitch position
  | widePrefixed => exact reads_readWide position

/-! ## More input -/

theorem incremental_align (position : Nat) : Incremental (align position) :=
  .of_guard (padding position) (padding position) position (fun _ ↦ ()) (fun w ↦ by rw [align])
    (Nat.le_refl _) fun _ _ ↦ rfl

theorem incremental_entries {α : Type} {p : Reader Empty α} (hp : Incremental p) (width n : Nat) :
    Incremental (entries width n p) :=
  (Incremental.require _).bind fun _ ↦ hp.times n

theorem incremental_readWide : Incremental readWide := by
  refine (Incremental.unsigned 1).bind fun opcode ↦ ?_
  split
  · exact .pure _
  · split
    · exact (Incremental.unsigned 2).bind fun _ ↦ .pure _
    · exact (Incremental.unsigned 2).bind fun _ ↦ (Incremental.signed 2).bind fun _ ↦ .pure _
    · exact .pure _

theorem incremental_read (position : Nat) (shape : Shape) : Incremental (read position shape) := by
  cases shape with
  | none => exact .pure _
  | u8 | constantPoolU8 | newArrayPrimitive =>
    exact (Incremental.unsigned 1).bind fun _ ↦ .pure _
  | u16 | constantPoolU16 => exact (Incremental.unsigned 2).bind fun _ ↦ .pure _
  | s16 => exact (Incremental.signed 2).bind fun _ ↦ .pure _
  | s32 => exact (Incremental.signed 4).bind fun _ ↦ .pure _
  | localIndexAndConst =>
    exact (Incremental.unsigned 1).bind fun _ ↦ (Incremental.signed 1).bind fun _ ↦ .pure _
  | invokeInterface =>
    exact (Incremental.unsigned 2).bind fun _ ↦ (Incremental.unsigned 1).bind fun _ ↦
      (Incremental.skip 1).bind fun _ ↦ .pure _
  | invokeDynamic =>
    exact (Incremental.unsigned 2).bind fun _ ↦ (Incremental.skip 2).bind fun _ ↦ .pure _
  | multiArray =>
    exact (Incremental.unsigned 2).bind fun _ ↦ (Incremental.unsigned 1).bind fun _ ↦ .pure _
  | tableSwitch =>
    exact (incremental_align position).bind fun _ ↦ (Incremental.signed 4).bind fun _ ↦
      (Incremental.signed 4).bind fun _ ↦ (Incremental.signed 4).bind fun _ ↦
        (incremental_entries (.signed 4) _ _).bind fun _ ↦ .pure _
  | lookupSwitch =>
    refine (incremental_align position).bind fun _ ↦ (Incremental.signed 4).bind fun _ ↦
      (Incremental.signed 4).bind fun _ ↦ (incremental_entries ?_ _ _).bind fun _ ↦ .pure _
    exact (Incremental.signed 4).bind fun _ ↦ (Incremental.signed 4).bind fun _ ↦ .pure _
  | widePrefixed => exact incremental_readWide

end Bytecode.Operands
