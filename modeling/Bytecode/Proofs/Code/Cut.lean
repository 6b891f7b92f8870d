import Bytecode.Proofs.Code.Tiling

/-!
# Cutting a code array

What the decoder makes of an instruction does not depend on what follows it, and an instruction of
which bytes are missing is not decoded.  So the front of a code array decodes to the instructions
that lie inside it, and decoding fails exactly where the cut goes through an instruction.
-/

namespace Bytecode.Code

open Reader

/-- The instructions that end at `n` or before. -/
def Decoded.upTo (d : Decoded) (n : Nat) : List Instruction :=
  d.instructions.filter fun i ↦ i.offset + i.length ≤ n

/-- Where instructions end that lie one behind the other from `start` on. -/
def stop (start : Nat) (is : List Instruction) : Nat :=
  (is.getLast?.map fun i ↦ i.offset + i.length).getD start

theorem stop_cons (start : Nat) (i : Instruction) (is : List Instruction) :
    stop start (i :: is) = stop (i.offset + i.length) is := by
  rw [stop, stop, List.getLast?_cons]
  cases is.getLast? <;> rfl

namespace Run

variable {policy : Policy} {offset : Nat} {bytes : List UInt8} {d : Decoded}

theorem le_offset (h : Run policy offset bytes d) : ∀ i ∈ d.instructions, offset ≤ i.offset := by
  intro i hi
  obtain ⟨before, -, -, -, -, hoff⟩ := h.exists_occupies i hi
  omega

theorem stop_eq (h : Run policy offset bytes d) :
    stop offset d.instructions = offset + d.extent := by
  induction h with
  | done | truncated => rfl
  | abort => rfl
  | step _ _ _ ih =>
    rw [Decoded.instructions_cons, stop_cons, ih, Decoded.extent_cons, Nat.add_assoc]

theorem end_le (h : Run policy offset bytes d) :
    ∀ i ∈ d.instructions, i.offset + i.length ≤ offset + d.extent := by
  induction h with
  | done | truncated =>
    intro i hi
    cases hi
  | abort =>
    intro j hj
    obtain rfl := List.mem_singleton.mp hj
    exact Nat.le_refl _
  | step _ _ _ ih =>
    intro j hj
    rw [Decoded.extent_cons]
    rcases List.mem_cons.mp hj with rfl | hj
    · omega
    · have hle := ih j hj
      omega

/-- Without the bytes that an instruction starts with there is nothing to decode, and with some of
them decoding is cut short. -/
theorem exists_of_prefix {opcode : UInt8} {rest front : List UInt8}
    (hfront : front <+: opcode :: rest)
    (hcut : ∀ w : Window, w.toList <+: rest → front = opcode :: w.toList →
      ∃ s, Instruction.readOperands (offset + 1) opcode w = .error (.truncated s)) :
    ∃ d, Run .resume offset front d ∧ d.instructions = [] := by
  rcases List.prefix_cons_iff.mp hfront with rfl | ⟨tail, rfl, htail⟩
  · exact ⟨_, .done, rfl⟩
  · obtain ⟨s, hs⟩ := hcut (Window.ofList tail) (by simpa using htail) (by simp)
    have hrun : Run .resume offset (opcode :: (Window.ofList tail).toList) _ := .truncated hs
    rw [Window.toList_ofList] at hrun
    exact ⟨_, hrun, rfl⟩

/-- Nothing is decoded from a part of an instruction. -/
theorem exists_of_occupies {i : Instruction} {b : List UInt8} (hi : i.Occupies b) {n : Nat}
    (hn : n < b.length) : ∃ d, Run .resume i.offset (b.take n) d ∧ d.instructions = [] := by
  have hb : (Window.ofList b).toList = b ++ [] := by simp
  obtain ⟨m, hm, hread⟩ := readOperands_of_occupies hi hb
  obtain ⟨tail, rfl⟩ := hi.exists_eq_cons
  have htail : ((Window.ofList (i.opcode :: tail)).drop 1).toList = tail := by simp
  refine exists_of_prefix (List.take_prefix n _) fun w hw hfront ↦ ?_
  refine (Instruction.incremental_readOperands _ _).exists_truncated hread (htail.symm ▸ hw) ?_
  have hsize := congrArg List.length hfront
  have hlength := hi.length_eq
  simp only [List.length_take, List.length_cons, Window.length_toList] at hsize hlength hn
  omega

/-- The front of the bytes is decoded to the instructions that lie inside it. -/
theorem exists_take (h : Run .resume offset bytes d) {n : Nat} (hn : n ≤ bytes.length) :
    ∃ d', Run .resume offset (bytes.take n) d' ∧ d'.instructions = d.upTo (offset + n) := by
  induction h generalizing n with
  | done =>
    rw [List.take_nil]
    exact ⟨_, .done, rfl⟩
  | @truncated offset opcode rest s hs =>
    refine exists_of_prefix (List.take_prefix n _) fun w hw _ ↦ ?_
    rcases (Instruction.incremental_readOperands _ _).eq_or_exists_truncated hw with heq | hs'
    · exact ⟨s, heq.trans hs⟩
    · exact hs'
  | abort hp => cases hp
  | @step i b rest d hi he hr ih =>
    rcases Nat.lt_or_ge n b.length with hlt | hge
    · -- The cut goes through the instruction, so that the others start behind it.
      obtain ⟨d', hd', hnil⟩ := exists_of_occupies hi hlt
      rw [List.take_append_of_le_length (Nat.le_of_lt hlt)]
      refine ⟨d', hd', hnil.trans (List.filter_eq_nil_iff.mpr fun j hj ↦ ?_).symm⟩
      have hlength := hi.length_eq
      simp only [decide_eq_true_eq]
      rcases List.mem_cons.mp hj with rfl | hj
      · omega
      · have hle := hr.le_offset j hj
        omega
    · have hlength := hi.length_eq
      obtain ⟨d', hd', hinst⟩ := ih (n := n - b.length) (by
        rw [List.length_append] at hn
        omega)
      refine ⟨d'.cons i, ?_, ?_⟩
      · rw [List.take_append, List.take_of_length_le hge]
        exact .step hi he hd'
      · have hend : i.offset + i.length + (n - b.length) = i.offset + n := by omega
        have hi' : i.offset + i.length ≤ i.offset + n := by omega
        rw [Decoded.instructions_cons, hinst, hend, Decoded.upTo, Decoded.upTo,
          Decoded.instructions_cons, List.filter_cons_of_pos (by simpa using hi')]

/-- Without unknown opcodes to stop at, decoding reaches the end of the bytes or is cut short where
the instructions end. -/
theorem ends_resume (h : Run .resume offset bytes d) :
    (d.failure = none ∧ d.extent = bytes.length) ∨
      ∃ s, d.failure = some ⟨stop offset d.instructions, .truncated s⟩ ∧
        d.extent < bytes.length := by
  rcases h.ends with hdone | ⟨s, hf, -, hlt⟩ | ⟨ha, -⟩
  · exact .inl hdone
  · exact .inr ⟨s, by rw [hf, h.stop_eq], hlt⟩
  · cases ha

/-- The instructions take up all of `n` bytes where nothing is to be decoded or one of them ends
there. -/
theorem extent_eq_iff (h : Run policy 0 bytes d) {n : Nat} (hn : d.extent ≤ n) :
    d.extent = n ↔ n = 0 ∨ ∃ i ∈ d.instructions, i.offset + i.length = n := by
  constructor
  · rintro rfl
    have hstop := h.stop_eq
    rw [Nat.zero_add, stop] at hstop
    cases hl : d.instructions.getLast? with
    | none =>
      rw [hl] at hstop
      exact .inl hstop.symm
    | some i =>
      rw [hl] at hstop
      exact .inr ⟨i, List.mem_of_getLast? hl, hstop⟩
  · rintro (rfl | ⟨i, hi, rfl⟩)
    · exact Nat.le_zero.mp hn
    · have hle := h.end_le i hi
      omega

end Run

/-- The front of a code array decodes to the instructions that end inside it.  Decoding fails unless
the array is cut at its start or behind one of them, and then it is cut short where they end. -/
theorem decode_cut {code cut : Window} {n : Nat} (hn : n ≤ code.size)
    (hcut : cut.toList = code.toList.take n) :
    (decode .resume cut).instructions = (decode .resume code).upTo n ∧
    ((decode .resume cut).failure = none ↔
      n = 0 ∨ ∃ i ∈ (decode .resume code).upTo n, i.offset + i.length = n) ∧
    (¬ (n = 0 ∨ ∃ i ∈ (decode .resume code).upTo n, i.offset + i.length = n) →
      ∃ s, (decode .resume cut).failure =
        some ⟨stop 0 ((decode .resume code).upTo n), .truncated s⟩) := by
  have hlength : (code.toList.take n).length = n := by
    rw [List.length_take, Window.length_toList, Nat.min_eq_left hn]
  have hr : Run .resume 0 code.toList (decode .resume code) := run_decodeFrom .resume 0 code
  obtain ⟨d, hd, hinst⟩ := hr.exists_take (n := n) (by rwa [Window.length_toList])
  have hdecode : decode .resume cut = d := decodeFrom_of_run (hcut.symm ▸ hd)
  have hends := hd.ends_resume
  have hextent := hd.extent_eq_iff (n := n) (by omega)
  rw [Nat.zero_add] at hinst
  rw [hlength] at hends
  rw [hdecode, ← hinst, ← hextent]
  refine ⟨rfl, ?_, fun hne ↦ ?_⟩
  · rcases hends with ⟨hf, hx⟩ | ⟨s, hf, hx⟩
    · simp [hf, hx]
    · simp [hf, Nat.ne_of_lt hx]
  · obtain ⟨s, hf, -⟩ := hends.resolve_left fun h ↦ hne h.2
    exact ⟨s, hf⟩

/-- A cut through the padding of a switch leaves the instruction in front of it. -/
theorem decode_cut_padding :
    (decode .resume (Window.ofList [0, 0xAB, 0])).instructions = [⟨0, 0, .none, 1⟩] ∧
      ∃ s, (decode .resume (Window.ofList [0, 0xAB, 0])).failure = some ⟨1, .truncated s⟩ := by
  have hwhole : (decode .resume (Window.ofList [0, 0xAB, 0, 0, 0, 0, 0, 9, 0, 0, 0, 0])).upTo 3 =
      [⟨0, 0, .none, 1⟩] := by decide +kernel
  have hcut : (Window.ofList [0, 0xAB, 0]).toList =
      (Window.ofList [0, 0xAB, 0, 0, 0, 0, 0, 9, 0, 0, 0, 0]).toList.take 3 := rfl
  have h := decode_cut (by decide) hcut
  rw [hwhole] at h
  exact ⟨h.1, h.2.2 (by decide)⟩

end Bytecode.Code
