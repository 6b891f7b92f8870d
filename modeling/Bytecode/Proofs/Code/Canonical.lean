import Bytecode.Proofs.Assembly.Operands
import Bytecode.Proofs.Code.Tiling

/-!
# Assembling what was decoded

The statements of a code array that decodes without failure are assembled to the same array, except
that the bytes which decoding does not depend on become zeros.  Nothing that decoding sees is lost:
the new array decodes to the same instructions.
-/

namespace Bytecode

open Assembly Code

namespace Instruction

/-- The statement of an instruction of the catalog. -/
def statement? (i : Instruction) : Option Statement :=
  i.entry?.map fun e ↦ ⟨e.mnemonic, i.values⟩

/-- The bytes of an instruction, by their place in the code array, that decoding does not depend
on. -/
inductive Ignores (i : Instruction) (k : Nat) : Prop where
  | padding {e : Entry} (he : i.entry? = some e)
    (hm : e.mnemonic = "tableswitch" ∨ e.mnemonic = "lookupswitch") (hk : i.offset + 1 ≤ k)
    (hk' : k < i.offset + 1 + padding (i.offset + 1))
  | interfaceCall {e : Entry} (he : i.entry? = some e) (hm : e.mnemonic = "invokeinterface")
    (hk : k = i.offset + 4)
  | dynamicCall {e : Entry} (he : i.entry? = some e) (hm : e.mnemonic = "invokedynamic")
    (hk : k = i.offset + 3 ∨ k = i.offset + 4)

/-- Whether the byte at a place of the code array is ignored, by the shape of the operands. -/
def ignores (i : Instruction) (k : Nat) : Bool :=
  i.entry?.any fun e ↦ e.shape.ignores (i.offset + 1) k

theorem shape_eq_iff {i : Instruction} {e : Entry} (he : i.entry? = some e) {shape : Shape}
    {mnemonic : String} (hs : Catalog.standard.soleMnemonic? shape = some mnemonic) :
    e.shape = shape ↔ e.mnemonic = mnemonic :=
  Catalog.standard.shape_eq_iff (Catalog.standard.lookup_eq_some_iff.mp he).1 hs

theorem ignores_iff {i : Instruction} {k : Nat} : i.ignores k ↔ i.Ignores k := by
  rw [ignores, Option.any_eq_true]
  constructor
  · rintro ⟨e, he, hk⟩
    cases hs : e.shape with
    | tableSwitch =>
      rw [hs] at hk
      simp only [Shape.ignores, Bool.and_eq_true, decide_eq_true_eq] at hk
      exact .padding he (.inl ((shape_eq_iff he rfl).mp hs)) hk.1 hk.2
    | lookupSwitch =>
      rw [hs] at hk
      simp only [Shape.ignores, Bool.and_eq_true, decide_eq_true_eq] at hk
      exact .padding he (.inr ((shape_eq_iff he rfl).mp hs)) hk.1 hk.2
    | invokeInterface =>
      rw [hs, Shape.ignores, beq_iff_eq] at hk
      exact .interfaceCall he ((shape_eq_iff he rfl).mp hs) hk
    | invokeDynamic =>
      rw [hs, Shape.ignores, Bool.or_eq_true, beq_iff_eq, beq_iff_eq] at hk
      exact .dynamicCall he ((shape_eq_iff he rfl).mp hs) hk
    | _ =>
      rw [hs] at hk
      cases hk
  · rintro (⟨he, hm | hm, hk, hk'⟩ | ⟨he, hm, hk⟩ | ⟨he, hm, hk⟩)
    · have hs : _ = Shape.tableSwitch := (shape_eq_iff he rfl).mpr hm
      exact ⟨_, he, by simp [hs, Shape.ignores, hk, hk']⟩
    · have hs : _ = Shape.lookupSwitch := (shape_eq_iff he rfl).mpr hm
      exact ⟨_, he, by simp [hs, Shape.ignores, hk, hk']⟩
    · have hs : _ = Shape.invokeInterface := (shape_eq_iff he rfl).mpr hm
      exact ⟨_, he, by simp [hs, Shape.ignores, hk]⟩
    · have hs : _ = Shape.invokeDynamic := (shape_eq_iff he rfl).mpr hm
      exact ⟨_, he, by simp [hs, Shape.ignores, hk]⟩

/-- Only bytes behind the opcode are ignored. -/
theorem Occupies.range_of_ignores {i : Instruction} {b : List UInt8} (hi : i.Occupies b) {k : Nat}
    (hk : i.ignores k) : i.offset < k ∧ k < i.offset + i.length := by
  obtain ⟨e, he, hk⟩ := (Option.any_eq_true ..).mp hk
  cases hi with
  | known he' hn h =>
    cases he.symm.trans he'
    have hrange := h.range_of_ignores hk
    omega
  | unknown he' _ _ => cases he.symm.trans he'

/-- An instruction of the catalog is written as its bytes with the ignored ones cleared, which hold
the same instruction. -/
theorem Occupies.canonical {i : Instruction} {b : List UInt8} (hi : i.Occupies b)
    (hk : i.entry? ≠ none) :
    i.Occupies (clear i.ignores i.offset b) ∧
      ∃ s, i.statement? = some s ∧ s.write i.offset = .ok (clear i.ignores i.offset b) := by
  cases hi with
  | unknown he _ _ => exact absurd he hk
  | @known e b he hn h =>
    obtain ⟨hmem, hop⟩ := Catalog.standard.lookup_eq_some_iff.mp he
    obtain ⟨hl, hw⟩ := h.canonical e.mnemonic
    have hclear : clear i.ignores i.offset (i.opcode :: b) =
        i.opcode :: clear (e.shape.ignores (i.offset + 1)) (i.offset + 1) b := by
      have hfirst : i.ignores i.offset = false := by
        rw [Bool.eq_false_iff]
        intro hi
        exact absurd ((Occupies.known he hn h).range_of_ignores hi).1 (Nat.lt_irrefl _)
      rw [clear, hfirst, if_neg Bool.false_ne_true]
      refine congrArg (i.opcode :: ·) (clear_congr fun k _ _ ↦ ?_)
      rw [ignores, he, Option.any_some]
    rw [hclear]
    refine ⟨.known he (by rw [hn, length_clear]) hl, ⟨e.mnemonic, i.values⟩, ?_, ?_⟩
    · rw [statement?, he, Option.map_some]
    · refine Statement.write_eq_ok_iff.mpr
        ⟨e, _, Catalog.standard.named?_eq_some_iff.mpr ⟨hmem, rfl⟩, hw, ?_⟩
      rw [hop]
      simp

end Instruction

namespace Code

/-- The statements of the decoded instructions. -/
def Decoded.statements (d : Decoded) : List Statement :=
  d.instructions.filterMap Instruction.statement?

/-- Whether one of the decoded instructions ignores the byte at a place. -/
def Decoded.ignores (d : Decoded) (k : Nat) : Bool := d.instructions.any (·.ignores k)

theorem Decoded.ignores_cons (i : Instruction) (d : Decoded) (k : Nat) :
    (d.cons i).ignores k = (i.ignores k || d.ignores k) := rfl

theorem Decoded.ignores_iff {d : Decoded} {k : Nat} :
    d.ignores k ↔ ∃ i ∈ d.instructions, i.Ignores k := by
  simp only [ignores, List.any_eq_true, Instruction.ignores_iff]

namespace Run

variable {policy : Policy} {offset : Nat} {bytes : List UInt8} {d : Decoded}

/-- Only bytes that were decoded are ignored. -/
theorem range_of_ignores (h : Run policy offset bytes d) {k : Nat} (hk : d.ignores k) :
    offset ≤ k ∧ k < offset + bytes.length := by
  obtain ⟨i, hi, hk⟩ := List.any_eq_true.mp hk
  obtain ⟨before, b, after, rfl, hocc, hoff⟩ := h.exists_occupies i hi
  have hrange := hocc.range_of_ignores hk
  rw [List.length_append, List.length_append, hocc.length_eq]
  omega

/-- Clearing all ignored bytes is clearing those of the first instruction and those of the others.
-/
theorem clear_step {i : Instruction} {b rest : List UInt8} (hi : i.Occupies b)
    (hr : Run policy (i.offset + i.length) rest d) :
    clear (d.cons i).ignores i.offset (b ++ rest) =
      clear i.ignores i.offset b ++ clear d.ignores (i.offset + i.length) rest := by
  rw [clear_append, hi.length_eq]
  congr 1
  · refine clear_congr fun k _ hk ↦ ?_
    have hd : d.ignores k = false := by
      rw [Bool.eq_false_iff]
      intro hd
      have hrange := hr.range_of_ignores hd
      rw [hi.length_eq] at hk
      omega
    rw [Decoded.ignores_cons, hd, Bool.or_false]
  · refine clear_congr fun k hk _ ↦ ?_
    have hi : i.ignores k = false := by
      rw [Bool.eq_false_iff]
      intro hik
      have hrange := hi.range_of_ignores hik
      omega
    rw [Decoded.ignores_cons, hi, Bool.false_or]

/-- Along a run without failure and without unknown opcodes, the statements are assembled to the
bytes with the ignored ones cleared, which decode in the same way. -/
theorem canonical (h : Run policy offset bytes d) (hf : d.failure = none)
    (hk : ∀ i ∈ d.instructions, i.entry? ≠ none) :
    Run policy offset (clear d.ignores offset bytes) d ∧
      assembleFrom offset d.statements = .ok (clear d.ignores offset bytes) := by
  induction h with
  | done => exact ⟨.done, rfl⟩
  | truncated | abort => cases hf
  | @step i b rest d hi he hr ih =>
    rw [Decoded.instructions_cons, List.forall_mem_cons] at hk
    obtain ⟨hrun, hassemble⟩ := ih hf hk.2
    obtain ⟨hocc, s, hs, hw⟩ := hi.canonical hk.1
    rw [clear_step hi hr]
    refine ⟨.step hocc he hrun, ?_⟩
    have hstatements : (d.cons i).statements = s :: d.statements := by
      rw [Decoded.statements, Decoded.instructions_cons, List.filterMap_cons_some hs]
      rfl
    rw [hstatements, assembleFrom]
    simp only [except_bind_eq_ok, Except.ok.injEq]
    refine ⟨_, hw, _, ?_, rfl⟩
    rwa [length_clear, hi.length_eq]

end Run

/-- The statements of a code array that decodes without failure and without unknown opcodes are
assembled to an array of the same size that has zeros in the ignored places, is the same in all
others, and decodes to the same instructions. -/
theorem assemble_statements (code : Window) (hf : (decode .resume code).failure = none)
    (hk : ∀ i ∈ (decode .resume code).instructions, i.entry? ≠ none) :
    ∃ bytes, assemble (decode .resume code).statements = .ok bytes ∧ bytes.length = code.size ∧
      (∀ k, (∃ i ∈ (decode .resume code).instructions, i.Ignores k) → bytes[k]? = some 0) ∧
      (∀ k, (∀ i ∈ (decode .resume code).instructions, ¬ i.Ignores k) →
        bytes[k]? = code.toList[k]?) ∧
      decode .resume (Window.ofList bytes) = decode .resume code := by
  have hr : Run .resume 0 code.toList (decode .resume code) := run_decodeFrom .resume 0 code
  obtain ⟨hrun, hassemble⟩ := hr.canonical hf hk
  refine ⟨_, hassemble, by rw [length_clear, Window.length_toList], ?_, ?_, ?_⟩
  · intro k hi
    have hik := Decoded.ignores_iff.mpr hi
    have hlt : k < code.toList.length := by simpa using (hr.range_of_ignores hik).2
    rw [getElem?_clear, Nat.zero_add, List.getElem?_eq_getElem hlt, Option.map_some, if_pos hik]
  · intro k hi
    have hik : (decode .resume code).ignores k = false := by
      rw [Bool.eq_false_iff]
      intro hk
      obtain ⟨i, hmem, hik⟩ := Decoded.ignores_iff.mp hk
      exact hi i hmem hik
    rw [getElem?_clear, Nat.zero_add, hik]
    simp
  · refine decodeFrom_of_run ?_
    rwa [Window.toList_ofList]

theorem assemble_statements_padded :
    let code := Window.ofList
      [0, 170, 9, 9, 0, 0, 0, 20, 0, 0, 0, 0, 0, 0, 0, 0, 0, 0, 0, 16, 185, 0, 5, 1, 7]
    (decode .resume code).failure = none ∧ ∃ bytes,
      assemble (decode .resume code).statements = .ok bytes ∧ bytes.length = 25 ∧
      bytes[3]? = some 0 ∧ bytes[24]? = some 0 ∧
      decode .resume (Window.ofList bytes) = decode .resume code := by
  intro code
  have hf : (decode .resume code).failure = none := by decide +kernel
  have hk : ∀ i ∈ (decode .resume code).instructions, i.entry? ≠ none := by decide +kernel
  have hpadding : (decode .resume code).ignores 3 := by decide +kernel
  have hlast : (decode .resume code).ignores 24 := by decide +kernel
  obtain ⟨bytes, hassemble, hlength, hzero, -, hdecode⟩ := assemble_statements code hf hk
  exact ⟨hf, bytes, hassemble, hlength, hzero 3 (Decoded.ignores_iff.mp hpadding),
    hzero 24 (Decoded.ignores_iff.mp hlast), hdecode⟩

end Code

end Bytecode
