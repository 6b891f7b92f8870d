import Bytecode.Proofs.Code.Run

/-!
# Stopping at unknown opcodes

The two policies differ only at a byte that is no opcode.  A run that resumes there and a run that
stops there are the same if no such byte is met; otherwise the run that stops has the instructions
of the other one up to the first unknown opcode and fails at it, however the other one ends.
-/

namespace Bytecode.Code

/-- Every instruction has an opcode that the catalog knows. -/
def Known (is : List Instruction) : Prop := ∀ i ∈ is, i.entry? ≠ none

/-- What is decoded up to an unknown opcode. -/
def Decoded.stoppedAt (before : List Instruction) (p : Instruction) : Decoded :=
  ⟨before ++ [p], some ⟨p.offset, .unknownOpcode p.opcode.toNat⟩⟩

namespace Run

variable {offset : Nat} {bytes : List UInt8} {d : Decoded}

theorem abort_of_known (h : Run .resume offset bytes d) (hk : Known d.instructions) :
    Run .abort offset bytes d := by
  induction h with
  | done => exact .done
  | truncated hs => exact .truncated hs
  | abort hp => cases hp
  | step hi _ _ ih =>
    obtain ⟨hknown, hrest⟩ := List.forall_mem_cons.mp hk
    exact .step hi (fun _ ↦ hknown) (ih hrest)

theorem abort_of_unknown (h : Run .resume offset bytes d) {before after : List Instruction}
    {p : Instruction} (hd : d.instructions = before ++ p :: after) (hk : Known before)
    (hp : p.entry? = none) : Run .abort offset bytes (.stoppedAt before p) := by
  induction h generalizing before with
  | done | truncated => cases before <;> cases hd
  | abort ha => cases ha
  | @step i b rest d hi _ hr ih =>
    cases before with
    | nil =>
      cases hd
      exact .abort rfl hi hp
    | cons j before =>
      obtain ⟨rfl, htail⟩ := List.cons.inj hd
      obtain ⟨hknown, hrest⟩ := List.forall_mem_cons.mp hk
      exact .step hi (fun _ ↦ hknown) (ih htail hrest)

end Run

theorem decode_abort_of_known {code : Window}
    (h : Known (decode .resume code).instructions) :
    decode .abort code = decode .resume code :=
  decodeFrom_of_run ((run_decodeFrom .resume 0 code).abort_of_known h)

theorem decode_abort_of_unknown {code : Window} {before after : List Instruction}
    {p : Instruction} (hd : (decode .resume code).instructions = before ++ p :: after)
    (hk : Known before) (hp : p.entry? = none) :
    decode .abort code = .stoppedAt before p :=
  decodeFrom_of_run ((run_decodeFrom .resume 0 code).abort_of_unknown hd hk hp)

/-- Instructions all have known opcodes, or there is a first one that has not. -/
theorem known_or_exists_unknown (is : List Instruction) :
    Known is ∨ ∃ before p after, is = before ++ p :: after ∧ Known before ∧ p.entry? = none := by
  cases hf : is.find? fun i ↦ i.entry?.isNone with
  | none =>
    have hnone := List.find?_eq_none.mp hf
    exact .inl fun i hi he ↦ hnone i hi (by simp [he])
  | some p =>
    obtain ⟨hp, before, after, rfl, hk⟩ := List.find?_eq_some_iff_append.mp hf
    refine .inr ⟨before, p, after, rfl, fun i hi he ↦ ?_, Option.isNone_iff_eq_none.mp hp⟩
    simpa [he] using hk i hi

/-- A run that stops at unknown opcodes is the run that resumes there, if it meets none.  Otherwise it
has the instructions of that run up to the first unknown opcode and fails at it, whether or not that
run fails later. -/
theorem decode_abort (code : Window) :
    (Known (decode .resume code).instructions → decode .abort code = decode .resume code) ∧
    ∀ (j : Nat) (p : Instruction), (decode .resume code).instructions[j]? = some p →
      p.entry? = none → Known ((decode .resume code).instructions.take j) →
      decode .abort code = ⟨(decode .resume code).instructions.take (j + 1),
        some ⟨p.offset, .unknownOpcode p.opcode.toNat⟩⟩ := by
  refine ⟨decode_abort_of_known, fun j p hj hp hk ↦ ?_⟩
  obtain ⟨hlt, hget⟩ := List.getElem?_eq_some_iff.mp hj
  have hsplit : (decode .resume code).instructions =
      (decode .resume code).instructions.take j ++
        p :: (decode .resume code).instructions.drop (j + 1) := by
    rw [← hget, List.getElem_cons_drop, List.take_append_drop]
  have htake : (decode .resume code).instructions.take (j + 1) =
      (decode .resume code).instructions.take j ++ [p] := by
    rw [List.take_add_one, hj, Option.toList_some]
  rw [decode_abort_of_unknown hsplit hk hp, htake, Decoded.stoppedAt]

/-- Behind a wide prefix and in an operand the byte `CB` is harmless, as an opcode it is not.  That the
last instruction is cut short is not reported any more. -/
theorem decode_abort_wide :
    (decode .resume (Window.ofList [0xC4, 0xCB, 0x10, 0xCB, 0xCB, 0xB1, 0x11])).failure =
        some ⟨6, .truncated ⟨2, 0⟩⟩ ∧
      decode .abort (Window.ofList [0xC4, 0xCB, 0x10, 0xCB, 0xCB, 0xB1, 0x11]) =
        ⟨[⟨0, 0xC4, .wideUnknown 203, 2⟩, ⟨2, 0x10, .immediate 203, 2⟩, ⟨4, 0xCB, .none, 1⟩],
          some ⟨4, .unknownOpcode 203⟩⟩ := by
  have hresume : decode .resume (Window.ofList [0xC4, 0xCB, 0x10, 0xCB, 0xCB, 0xB1, 0x11]) =
      ⟨[⟨0, 0xC4, .wideUnknown 203, 2⟩, ⟨2, 0x10, .immediate 203, 2⟩, ⟨4, 0xCB, .none, 1⟩,
        ⟨5, 0xB1, .none, 1⟩], some ⟨6, .truncated ⟨2, 0⟩⟩⟩ := by decide +kernel
  have h := (decode_abort (Window.ofList [0xC4, 0xCB, 0x10, 0xCB, 0xCB, 0xB1, 0x11])).2 2
    ⟨4, 0xCB, .none, 1⟩
  rw [hresume] at h ⊢
  exact ⟨rfl, h rfl (by decide +kernel) (by simp only [Known]; decide +kernel)⟩

end Bytecode.Code
