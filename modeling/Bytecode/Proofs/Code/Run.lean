import Bytecode.Code
import Bytecode.Proofs.Operands.Layout

/-!
# Runs of the decoder

`Instruction.Occupies` says which bytes an instruction takes up, and `Code.Run` how decoding
proceeds from one instruction to the next: it is done, it is cut short, it aborts, or it takes a
step.  What the decoder does is such a run (`Code.run_decodeFrom`), and a run over the same bytes is
what the decoder does (`Code.decodeFrom_of_run`), so that what holds of all results is shown by
induction on `Run`, one case for each way to go on.
-/

namespace Bytecode

open Reader

theorem Window.toList_of_next?_eq_none {w : Window} (h : w.next? = none) : w.toList = [] := by
  rw [next?_eq] at h
  split at h
  · assumption
  · cases h

theorem Window.toList_of_next?_eq_some {w rest : Window} {b : UInt8}
    (h : w.next? = some (b, rest)) : w.toList = b :: rest.toList := by
  rw [next?_eq] at h
  split at h
  · cases h
  · next hw =>
    cases h
    rw [toList_drop, hw, List.drop_one, List.tail_cons]

/-- `i.Occupies b` says that `b` holds the instruction `i` and nothing else. -/
inductive Instruction.Occupies (i : Instruction) : List UInt8 → Prop where
  | known {e : Entry} {b : List UInt8} (he : i.entry? = some e) (hn : i.length = b.length + 1)
    (h : Operands.Layout (i.offset + 1) e.shape i.operands b) : i.Occupies (i.opcode :: b)
  | unknown (he : i.entry? = none) (hn : i.length = 1) (ho : i.operands = .none) :
    i.Occupies [i.opcode]

namespace Instruction

theorem Occupies.length_eq {i : Instruction} {b : List UInt8} (h : i.Occupies b) :
    b.length = i.length := by
  cases h with
  | known _ hn _ => rw [hn, List.length_cons]
  | unknown _ hn _ => rw [hn, List.length_singleton]

/-- An instruction starts with its opcode. -/
theorem Occupies.exists_eq_cons {i : Instruction} {b : List UInt8} (h : i.Occupies b) :
    ∃ tail, b = i.opcode :: tail := by
  cases h <;> exact ⟨_, rfl⟩

theorem reads_readOperands (offset : Nat) (opcode : UInt8) :
    Reads (readOperands (offset + 1) opcode) fun o b ↦
      Occupies ⟨offset, opcode, o, b.length + 1⟩ (opcode :: b) := by
  rw [readOperands]
  cases he : Catalog.standard.lookup opcode.toNat with
  | some e =>
    refine (Operands.reads_read (offset + 1) e.shape).congr fun o b ↦ ?_
    constructor
    · intro h
      exact .known he rfl h
    · intro h
      cases h with
      | known he' _ h =>
        cases he.symm.trans he'
        exact h
      | unknown he' _ _ => cases he.symm.trans he'
  | none =>
    refine (Reads.pure _).congr fun o b ↦ ?_
    constructor
    · rintro ⟨rfl, rfl⟩
      exact .unknown he rfl rfl
    · intro h
      cases h with
      | known he' _ h => cases he.symm.trans he'
      | unknown _ _ ho => exact ⟨ho, rfl⟩

theorem incremental_readOperands (position : Nat) (opcode : UInt8) :
    Incremental (readOperands position opcode) := by
  rw [readOperands]
  split
  · exact Operands.incremental_read position _
  · exact .pure _

end Instruction

namespace Code

/-- The ways in which decoding proceeds from `offset` on, where the bytes in the first list follow.
-/
inductive Run (policy : Policy) : Nat → List UInt8 → Decoded → Prop where
  | done {offset : Nat} : Run policy offset [] ⟨[], none⟩
  | truncated {offset : Nat} {opcode : UInt8} {rest : Window} {s : Shortfall}
    (h : Instruction.readOperands (offset + 1) opcode rest = .error (.truncated s)) :
    Run policy offset (opcode :: rest.toList) ⟨[], some ⟨offset, .truncated s⟩⟩
  | abort {i : Instruction} {b rest : List UInt8} (hp : policy = .abort) (hi : i.Occupies b)
    (he : i.entry? = none) :
    Run policy i.offset (b ++ rest) ⟨[i], some ⟨i.offset, .unknownOpcode i.opcode.toNat⟩⟩
  | step {i : Instruction} {b rest : List UInt8} {d : Decoded} (hi : i.Occupies b)
    (he : policy = .abort → i.entry? ≠ none) (hr : Run policy (i.offset + i.length) rest d) :
    Run policy i.offset (b ++ rest) (d.cons i)

theorem run_decodeFrom (policy : Policy) (offset : Nat) (w : Window) :
    Run policy offset w.toList (decodeFrom policy offset w) := by
  fun_induction decodeFrom policy offset w with
  | case1 offset w hw =>
    rw [Window.toList_of_next?_eq_none hw]
    exact .done
  | case2 offset w opcode rest hw fault hf =>
    rw [Window.toList_of_next?_eq_some hw]
    cases fault with
    | truncated s => exact .truncated hf
    | invalid e => exact e.elim
  | case3 offset w opcode rest hw o n ho i ha =>
    obtain ⟨b, tail, hrest, rfl, hi⟩ := (Instruction.reads_readOperands offset opcode).of_apply ho
    rw [Window.toList_of_next?_eq_some hw, hrest]
    exact .abort (i := i) ha.1 hi ha.2
  | case4 offset w opcode rest hw o n ho i ha ih =>
    obtain ⟨b, tail, hrest, rfl, hi⟩ := (Instruction.reads_readOperands offset opcode).of_apply ho
    have htail : (rest.drop b.length).toList = tail := by
      rw [Window.toList_drop, hrest, List.drop_left]
    rw [Window.toList_of_next?_eq_some hw, hrest]
    rw [htail] at ih
    exact .step (i := i) hi (fun hp he ↦ ha ⟨hp, he⟩) ih

/-! ## Runs determine the result -/

theorem decodeFrom_nil {policy : Policy} {offset : Nat} {w : Window} (hw : w.toList = []) :
    decodeFrom policy offset w = ⟨[], none⟩ := by
  have hn : w.next? = none := by rw [Window.next?_eq, hw]
  rw [decodeFrom]
  split
  · rfl
  · next hs =>
    rw [hn] at hs
    cases hs

theorem decodeFrom_cons {policy : Policy} {offset : Nat} {w : Window} {opcode : UInt8}
    {tail : List UInt8} (hw : w.toList = opcode :: tail) :
    decodeFrom policy offset w =
      match Instruction.readOperands (offset + 1) opcode (w.drop 1) with
      | .error fault => ⟨[], some ⟨offset, .truncated fault.shortfall⟩⟩
      | .ok (o, n) =>
        if policy = .abort ∧ Instruction.entry? ⟨offset, opcode, o, n + 1⟩ = none then
          ⟨[⟨offset, opcode, o, n + 1⟩], some ⟨offset, .unknownOpcode opcode.toNat⟩⟩
        else (decodeFrom policy (offset + (n + 1)) ((w.drop 1).drop n)).cons
          ⟨offset, opcode, o, n + 1⟩ := by
  have hn : w.next? = some (opcode, w.drop 1) := by rw [Window.next?_eq, hw]
  rw [decodeFrom]
  split
  · next hs =>
    rw [hn] at hs
    cases hs
  · next hs =>
    rw [hn] at hs
    cases hs
    rfl

/-- The bytes of an instruction are read as the instruction. -/
theorem readOperands_of_occupies {w : Window} {i : Instruction} {b rest : List UInt8}
    (hi : i.Occupies b) (hw : w.toList = b ++ rest) :
    ∃ n, i.length = n + 1 ∧
      Instruction.readOperands (i.offset + 1) i.opcode (w.drop 1) = .ok (i.operands, n) := by
  obtain ⟨tail, rfl⟩ := hi.exists_eq_cons
  have hn : i.length = tail.length + 1 := by rw [← hi.length_eq, List.length_cons]
  have hrest : (w.drop 1).toList = tail ++ rest := by
    rw [Window.toList_drop, hw, List.cons_append, List.drop_one, List.tail_cons]
  refine ⟨tail.length, hn, (Instruction.reads_readOperands i.offset i.opcode).apply hrest ?_⟩
  rw [← hn]
  exact hi

theorem decodeFrom_of_run {policy : Policy} {offset : Nat} {w : Window} {d : Decoded}
    (hr : Run policy offset w.toList d) : decodeFrom policy offset w = d := by
  generalize hb : w.toList = bytes at hr
  induction hr generalizing w with
  | done => exact decodeFrom_nil hb
  | @truncated offset opcode rest s h =>
    -- What is missing only depends on the bytes, not on the buffer behind the window.
    have hrest : (w.drop 1).toList = rest.toList := by
      rw [Window.toList_drop, hb, List.drop_one, List.tail_cons]
    have hsize : (w.drop 1).size = rest.size := by
      rw [← Window.length_toList, hrest, Window.length_toList]
    have hinc := Instruction.incremental_readOperands (offset + 1) opcode
    have hs := hinc.short h
    have hpre : rest.toList <+: (w.drop 1).toList := hrest ▸ List.prefix_rfl
    have hread := hinc.truncated_extend hpre h (by omega)
    rw [decodeFrom_cons hb, hread, hsize, Nat.sub_self, Nat.add_zero]
    rfl
  | @abort i b rest hp hi he =>
    obtain ⟨n, hn, ho⟩ := readOperands_of_occupies hi hb
    obtain ⟨tail, rfl⟩ := hi.exists_eq_cons
    rw [decodeFrom_cons hb, ho]
    dsimp only
    rw [← hn, if_pos ⟨hp, he⟩]
  | @step i b rest d hi he _ ih =>
    obtain ⟨n, hn, ho⟩ := readOperands_of_occupies hi hb
    have hrest : ((w.drop 1).drop n).toList = rest := by
      rw [Window.toList_drop, Window.toList_drop, List.drop_drop, Nat.add_comm 1 n, ← hn, hb,
        ← hi.length_eq, List.drop_left]
    obtain ⟨tail, rfl⟩ := hi.exists_eq_cons
    rw [decodeFrom_cons hb, ho]
    dsimp only
    rw [← hn, if_neg fun ha ↦ he ha.1 ha.2, ih hrest]

end Code

end Bytecode
