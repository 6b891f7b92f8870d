import Bytecode.Proofs.Assembly.Operands
import Bytecode.Proofs.Code.Tiling

/-!
# Decoding what was assembled

An assembled code array decodes to the statements that it was assembled from exactly when all of
them are complete: the number of operands of a switch or of a widened instruction is not checked
when they are written, and a wrong number is never read back.
-/

namespace Bytecode

open Assembly Code

/-! ## Statements -/

/-- An instruction is what a statement says: it has the opcode of the mnemonic and the same
operands. -/
def Instruction.Realizes (i : Instruction) (s : Statement) : Prop :=
  Catalog.standard.opcodeOf s.mnemonic = .ok i.opcode.toNat ∧ i.values = s.operands

namespace Assembly.Statement

/-- The statement has as many operands as the first of them announce. -/
structure Complete (s : Statement) : Prop where
  tableswitch : s.mnemonic = "tableswitch" → CompleteTable s.operands
  lookupswitch : s.mnemonic = "lookupswitch" → CompleteLookup s.operands
  wide : s.mnemonic = "wide" → CompleteWide s.operands

theorem complete_iff {s : Statement} {e : Entry}
    (he : Catalog.standard.named? s.mnemonic = some e) :
    s.Complete ↔ Assembly.Complete e.shape s.operands := by
  obtain ⟨hmem, hm⟩ := Catalog.standard.named?_eq_some_iff.mp he
  have hshape : ∀ {shape mnemonic}, Catalog.standard.soleMnemonic? shape = some mnemonic →
      (e.shape = shape ↔ s.mnemonic = mnemonic) := hm ▸ Catalog.standard.shape_eq_iff hmem
  constructor
  · rintro ⟨h₁, h₂, h₃⟩
    cases hs : e.shape with
    | tableSwitch => exact h₁ ((hshape rfl).mp hs)
    | lookupSwitch => exact h₂ ((hshape rfl).mp hs)
    | widePrefixed => exact h₃ ((hshape rfl).mp hs)
    | _ => trivial
  · intro h
    refine ⟨fun hs ↦ ?_, fun hs ↦ ?_, fun hs ↦ ?_⟩
    · have htable : e.shape = .tableSwitch := (hshape rfl).mpr hs
      rwa [htable] at h
    · have hlookup : e.shape = .lookupSwitch := (hshape rfl).mpr hs
      rwa [hlookup] at h
    · have hwide : e.shape = .widePrefixed := (hshape rfl).mpr hs
      rwa [hwide] at h

end Assembly.Statement

/-- The instruction of a statement is the one that its mnemonic names. -/
theorem Instruction.Realizes.exists_entry {i : Instruction} {s : Statement} (h : i.Realizes s) :
    ∃ e, i.entry? = some e ∧ Catalog.standard.named? s.mnemonic = some e := by
  obtain ⟨hop, -⟩ := h
  rw [Catalog.opcodeOf] at hop
  split at hop
  · next e he =>
    have hmem := (Catalog.standard.named?_eq_some_iff.mp he).1
    exact ⟨e, Catalog.standard.lookup_eq_some_iff.mpr ⟨hmem, Except.ok.inj hop⟩, he⟩
  · cases hop

/-- What a code array holds is complete. -/
theorem Instruction.Realizes.complete {i : Instruction} {s : Statement} {b : List UInt8}
    (h : i.Realizes s) (hi : i.Occupies b) : s.Complete := by
  obtain ⟨e, he, hnamed⟩ := h.exists_entry
  cases hi with
  | known he' _ hl =>
    cases he.symm.trans he'
    rw [Statement.complete_iff hnamed, ← h.2]
    exact hl.complete
  | unknown he' _ _ => cases he.symm.trans he'

/-- The bytes of a complete statement hold an instruction that is what the statement says. -/
theorem Assembly.Statement.exists_occupies {s : Statement} {position : Nat} {b : List UInt8}
    (hw : s.write position = .ok b) (hc : s.Complete) :
    ∃ i : Instruction, i.offset = position ∧ i.Occupies b ∧ i.entry? ≠ none ∧ i.Realizes s := by
  obtain ⟨e, operands, he, hoperands, rfl⟩ := write_eq_ok_iff.mp hw
  have hmem := (Catalog.standard.named?_eq_some_iff.mp he).1
  obtain ⟨opcode, hop⟩ := Catalog.standard.exists_opcode_eq hmem
  obtain ⟨o, ho, hl⟩ := exists_layout ((complete_iff he).mp hc) hoperands
  have hentry : Catalog.standard.lookup opcode.toNat = some e :=
    Catalog.standard.lookup_eq_some_iff.mpr ⟨hmem, hop⟩
  have hbyte : e.opcode.toNat.toUInt8 = opcode := by simp [hop]
  rw [hbyte]
  refine ⟨⟨position, opcode, o, operands.length + 1⟩, rfl, .known hentry rfl hl, ?_, ?_, ho⟩
  · rw [Instruction.entry?, hentry]
    exact Option.some_ne_none e
  · rw [Catalog.opcodeOf, he]
    exact congrArg Except.ok hop

/-! ## Programs -/

/-- What was assembled from complete statements is decoded to instructions that are what the
statements say. -/
theorem Assembly.run_of_assembleFrom (policy : Policy) {p : List Statement} {position : Nat}
    {bytes : List UInt8} (h : assembleFrom position p = .ok bytes) (hc : ∀ s ∈ p, s.Complete) :
    ∃ d, Run policy position bytes d ∧ d.failure = none ∧
      List.Forall₂ Instruction.Realizes d.instructions p := by
  induction p generalizing position bytes with
  | nil =>
    cases h
    exact ⟨_, .done, rfl, .nil⟩
  | cons s p ih =>
    simp only [assembleFrom, except_bind_eq_ok, Except.ok.injEq] at h
    obtain ⟨b, hs, rest, hp, rfl⟩ := h
    obtain ⟨i, rfl, hi, he, hreal⟩ := s.exists_occupies hs (hc s List.mem_cons_self)
    rw [hi.length_eq] at hp
    obtain ⟨d, hr, hf, hall⟩ := ih hp fun s hs ↦ hc s (List.mem_cons_of_mem _ hs)
    exact ⟨d.cons i, .step hi (fun _ ↦ he) hr, hf, .cons hreal hall⟩

/-- The offset of an instruction is the number of bytes in front of it. -/
theorem Code.Run.offset_eq {policy : Policy} {offset : Nat} {bytes : List UInt8} {d : Decoded}
    (h : Run policy offset bytes d) {before after : List Instruction} {i : Instruction}
    (hd : d.instructions = before ++ i :: after) :
    i.offset = offset + (before.map (·.length)).sum := by
  induction h generalizing before with
  | done | truncated => simp at hd
  | @abort j b rest =>
    cases before with
    | nil =>
      cases hd
      rfl
    | cons k before => simp at hd
  | @step j b rest d hj he hr ih =>
    cases before with
    | nil =>
      cases hd
      rfl
    | cons k before =>
      obtain ⟨rfl, hd'⟩ := List.cons.inj hd
      rw [ih hd', List.map_cons, List.sum_cons, Nat.add_assoc]

namespace Code

/-- An assembled code array decodes to its statements exactly when all of them are complete, and
then every instruction stands right behind those in front of it and the last one ends the array. -/
theorem decode_assemble_iff (policy : Policy) {p : List Statement} {code : Window}
    (h : assemble p = .ok code.toList) :
    ((decode policy code).failure = none ∧
        List.Forall₂ Instruction.Realizes (decode policy code).instructions p ↔
      ∀ s ∈ p, s.Complete) ∧
    ((∀ s ∈ p, s.Complete) →
      (∀ before i after, (decode policy code).instructions = before ++ i :: after →
        i.offset = (before.map (·.length)).sum) ∧
      ((decode policy code).instructions.map (·.length)).sum = code.size) := by
  have hr : Run policy 0 code.toList (decode policy code) := run_decodeFrom policy 0 code
  have hreads : (∀ s ∈ p, s.Complete) → (decode policy code).failure = none ∧
      List.Forall₂ Instruction.Realizes (decode policy code).instructions p := by
    intro hc
    obtain ⟨d, hd, hf, hall⟩ := run_of_assembleFrom policy h hc
    have hdecode : decode policy code = d := decodeFrom_of_run hd
    rw [hdecode]
    exact ⟨hf, hall⟩
  refine ⟨⟨?_, hreads⟩, fun hc ↦ ⟨?_, ?_⟩⟩
  · rintro ⟨-, hall⟩
    have hocc : ∀ i ∈ (decode policy code).instructions, ∃ b, i.Occupies b := by
      intro i hi
      obtain ⟨-, b, -, -, hb, -⟩ := hr.exists_occupies i hi
      exact ⟨b, hb⟩
    have hcomplete : List.Forall₂ (fun s i ↦ Statement.Complete s ∧ Instruction.Realizes i s) p
        (decode policy code).instructions := by
      refine (((List.forall₂_and_left _ _).mpr ⟨hocc, hall⟩).imp ?_).flip
      rintro i s ⟨⟨b, hb⟩, hreal⟩
      exact ⟨hreal.complete hb, hreal⟩
    exact ((List.forall₂_and_left _ _).mp hcomplete).1
  · intro before i after hd
    rw [hr.offset_eq hd, Nat.zero_add]
  · rcases hr.ends with ⟨-, hx⟩ | ⟨s, hf, -⟩ | ⟨-, -, i, -, hf, -⟩
    · rw [← Window.length_toList]
      exact hx
    · cases (hreads hc).1.symm.trans hf
    · cases (hreads hc).1.symm.trans hf

theorem decode_assemble_mixed :
    let p : List Statement :=
      [⟨"nop", []⟩, ⟨"tableswitch", [20, 0, 0, 16]⟩, ⟨"wide", [132, 5, -2]⟩]
    let code := Window.ofList
      [0, 170, 0, 0, 0, 0, 0, 20, 0, 0, 0, 0, 0, 0, 0, 0, 0, 0, 0, 16, 196, 132, 0, 5, 255, 254]
    assemble p = .ok code.toList ∧ (decode .abort code).failure = none ∧
      List.Forall₂ Instruction.Realizes (decode .abort code).instructions p := by
  intro p code
  have h : assemble p = .ok code.toList := by
    rw [Window.toList_ofList]
    decide +kernel
  refine ⟨h, (decode_assemble_iff .abort h).1.mpr ?_⟩
  have hiinc : ∃ e, Catalog.standard.lookup 132 = some e ∧ e.mnemonic = "iinc" := by decide +kernel
  obtain ⟨iinc, hlookup, hname⟩ := hiinc
  intro s hs
  simp only [p, List.mem_cons, List.not_mem_nil, or_false] at hs
  rcases hs with rfl | rfl | rfl
  · exact ⟨by simp, by simp, by simp⟩
  · exact ⟨fun _ ↦ ⟨20, 0, 0, [16], rfl, rfl⟩, by simp, by simp⟩
  · exact ⟨by simp, by simp, fun _ ↦ .increment hlookup hname⟩

end Code

end Bytecode
