import Bytecode.Proofs.Code.Tiling
import Bytecode.Proofs.Operands.Switch

/-!
# Code arrays one behind the other

The decoder counts positions from the start of the code array, but they only matter to the padding of
a switch, and there only modulo four.  So code that is moved by a multiple of four, or that holds no
switch, is decoded as before (`Code.Run.moved`), and what stands behind code that is decoded to its
end is decoded as if it stood alone (`Code.decode_append`).
-/

namespace Bytecode

open Reader

/-- The shortfall of the same read, `n` bytes further on in a code array.  Only where the padding of a
switch is missing does a shortfall count from the start of the array. -/
inductive Shortfall.Moved (n : Nat) (s : Shortfall) : Shortfall → Prop where
  | same : s.Moved n s
  | fromStart : s.Moved n ⟨s.needed + n, s.available + n⟩

/-! ## Operands -/

namespace Operands

/-- What is read in the same way `n` bytes further on in a code array. -/
inductive Moved {α : Type} (n : Nat) :
    Except (Fault Empty) α → Except (Fault Empty) α → Prop where
  | ok (a : α) : Moved n (.ok a) (.ok a)
  | truncated {s s' : Shortfall} (h : s.Moved n s') :
    Moved n (.error (.truncated s)) (.error (.truncated s'))

protected theorem Moved.refl {α : Type} (n : Nat) (x : Except (Fault Empty) α) : Moved n x x := by
  cases x with
  | ok a => exact .ok a
  | error fault =>
    cases fault with
    | truncated s => exact .truncated .same
    | invalid e => exact e.elim

theorem padding_add {n : Nat} (hn : 4 ∣ n) (position : Nat) :
    padding (position + n) = padding position := by
  simp only [padding, alignUp]
  omega

theorem align_bind_moved {α : Type} {n : Nat} (hn : 4 ∣ n) (position : Nat)
    (body : Unit → Reader Empty α) (w : Window) :
    Moved n ((align position >>= body) w) ((align (position + n) >>= body) w) := by
  rw [bind_apply, bind_apply, align, align, padding_add hn]
  by_cases h : padding position ≤ w.size
  · rw [if_pos h, if_pos h]
    exact .refl n _
  · rw [if_neg h, if_neg h]
    have hneeded : position + n + padding position = position + padding position + n := by omega
    have havailable : position + n + w.size = position + w.size + n := by omega
    rw [hneeded, havailable]
    exact .truncated .fromStart

/-- Where operands start matters to switches only, and to them modulo four. -/
theorem read_moved {n : Nat} {shape : Shape} (h : 4 ∣ n ∨ ∀ s : Switch, shape ≠ s.shape)
    (position : Nat) (w : Window) : Moved n (read position shape w) (read (position + n) shape w) := by
  cases shape with
  | tableSwitch =>
    have hn := h.resolve_right fun hs ↦ hs .table rfl
    exact align_bind_moved hn position _ w
  | lookupSwitch =>
    have hn := h.resolve_right fun hs ↦ hs .lookup rfl
    exact align_bind_moved hn position _ w
  | _ => exact .refl n _

end Operands

/-! ## Instructions -/

namespace Instruction

/-- The same instruction `n` bytes further on. -/
def moved (n : Nat) (i : Instruction) : Instruction := { i with offset := i.offset + n }

/-- An opcode that can be moved by `n` bytes: those of the switches only by a multiple of four. -/
def Movable (n : Nat) (opcode : UInt8) : Prop := 4 ∣ n ∨ ∀ s : Switch, opcode ≠ s.opcode

theorem readOperands_moved {n : Nat} {opcode : UInt8} (h : Movable n opcode) (position : Nat)
    (w : Window) :
    Operands.Moved n (readOperands position opcode w) (readOperands (position + n) opcode w) := by
  rw [readOperands, readOperands]
  cases he : Catalog.standard.lookup opcode.toNat with
  | none => exact .refl n _
  | some e =>
    refine Operands.read_moved (h.imp_right fun hs s hshape ↦ ?_) position w
    exact hs s (Switch.opcode_eq_of_shape he hshape)

theorem Occupies.moved {n : Nat} {i : Instruction} {b : List UInt8} (h : i.Occupies b)
    (hn : Movable n i.opcode) : (i.moved n).Occupies b := by
  have hb : (Window.ofList b).toList = b ++ [] := by simp
  obtain ⟨m, hm, hread⟩ := Code.readOperands_of_occupies h hb
  have hmoved := readOperands_moved hn (i.offset + 1) ((Window.ofList b).drop 1)
  rw [hread, Nat.add_right_comm] at hmoved
  obtain ⟨tail, rfl⟩ := h.exists_eq_cons
  have hlength := h.length_eq
  generalize hread' : readOperands (i.offset + n + 1) i.opcode _ = outcome at hmoved
  cases hmoved
  obtain ⟨b, rest, hwindow, rfl, hocc⟩ :=
    (reads_readOperands (i.offset + n) i.opcode).of_apply hread'
  -- What is read is all that stands behind the opcode.
  have hprefix : b <+: tail := ⟨rest, by simpa using hwindow.symm⟩
  rw [← hprefix.eq_of_length (by simpa [hm] using hlength.symm)]
  rw [← hm] at hocc
  exact hocc

end Instruction

/-! ## Runs -/

namespace Code

/-- The cause of the same failure `n` bytes further on. -/
inductive Cause.Moved (n : Nat) : Cause → Cause → Prop where
  | truncated {s s' : Shortfall} (h : s.Moved n s') : Moved n (.truncated s) (.truncated s')
  | unknownOpcode (opcode : Nat) : Moved n (.unknownOpcode opcode) (.unknownOpcode opcode)

/-- The same failure `n` bytes further on. -/
structure Failure.Moved (n : Nat) (f g : Failure) : Prop where
  offset : g.offset = f.offset + n
  cause : f.cause.Moved n g.cause

/-- No switch was decoded from `bytes`, which start at `offset`, and none was cut short. -/
structure Decoded.AvoidsSwitches (d : Decoded) (offset : Nat) (bytes : List UInt8) : Prop where
  instructions : ∀ i ∈ d.instructions, ∀ s : Switch, i.opcode ≠ s.opcode
  failure : ∀ f ∈ d.failure, ∀ s : Switch, bytes[f.offset - offset]? ≠ some s.opcode

namespace Run

variable {policy : Policy} {offset : Nat} {bytes : List UInt8} {d : Decoded}

theorem le_failure (h : Run policy offset bytes d) : ∀ f ∈ d.failure, offset ≤ f.offset := by
  induction h with
  | done => simp
  | truncated => simp
  | abort => simp
  | step _ _ _ ih =>
    intro f hf
    have hle := ih f hf
    omega

theorem avoidsSwitches_step {i : Instruction} {b rest : List UInt8} (hi : i.Occupies b)
    (hr : Run policy (i.offset + i.length) rest d)
    (h : (d.cons i).AvoidsSwitches i.offset (b ++ rest)) :
    d.AvoidsSwitches (i.offset + i.length) rest := by
  refine ⟨fun j hj ↦ h.instructions j (List.mem_cons_of_mem i hj), fun f hf s ↦ ?_⟩
  have hle := hr.le_failure f hf
  have hlength := hi.length_eq
  have hindex := h.failure f hf s
  rwa [List.getElem?_append_right (by omega), show f.offset - i.offset - b.length =
    f.offset - (i.offset + i.length) by omega] at hindex

/-- Code that is moved by a multiple of four, or that holds no switch, is decoded as before. -/
theorem moved (h : Run policy offset bytes d) {n : Nat}
    (hn : 4 ∣ n ∨ d.AvoidsSwitches offset bytes) :
    ∃ d', Run policy (offset + n) bytes d' ∧
      d'.instructions = d.instructions.map (·.moved n) ∧
      Option.Rel (Failure.Moved n) d.failure d'.failure := by
  induction h with
  | done => exact ⟨_, .done, rfl, .none⟩
  | @truncated offset opcode rest s hs =>
    have hopcode : Instruction.Movable n opcode := by
      refine hn.imp_right fun h s' hs' ↦ ?_
      exact h.failure _ rfl s' (by simp [hs'])
    have hmoved := Instruction.readOperands_moved hopcode (offset + 1) rest
    rw [hs, Nat.add_right_comm] at hmoved
    generalize hread : Instruction.readOperands (offset + n + 1) opcode rest = outcome at hmoved
    cases hmoved with
    | truncated h => exact ⟨_, .truncated hread, rfl, .some ⟨rfl, .truncated h⟩⟩
  | @abort i b rest hp hi he =>
    have hopcode : Instruction.Movable n i.opcode :=
      hn.imp_right fun h s ↦ h.instructions i (List.mem_singleton_self i) s
    exact ⟨_, .abort (i := i.moved n) hp (hi.moved hopcode) he, rfl,
      .some ⟨rfl, .unknownOpcode _⟩⟩
  | @step i b rest d hi he hr ih =>
    have hopcode : Instruction.Movable n i.opcode :=
      hn.imp_right fun h s ↦ h.instructions i List.mem_cons_self s
    obtain ⟨d', hd', hinst, hfail⟩ := ih (hn.imp_right (avoidsSwitches_step hi hr))
    rw [Nat.add_right_comm] at hd'
    refine ⟨d'.cons (i.moved n), .step (i := i.moved n) (hi.moved hopcode) he hd', ?_, hfail⟩
    rw [Decoded.instructions_cons, hinst, Decoded.instructions_cons, List.map_cons]

/-- A run that reaches the end of its bytes goes on with what stands behind them. -/
theorem append (h : Run policy offset bytes d) (hd : d.failure = none) {rest : List UInt8}
    {d' : Decoded} (h' : Run policy (offset + bytes.length) rest d') :
    Run policy offset (bytes ++ rest) ⟨d.instructions ++ d'.instructions, d'.failure⟩ := by
  induction h with
  | done => exact h'
  | truncated | abort => cases hd
  | @step i b bytes d hi he _ ih =>
    rw [List.length_append, hi.length_eq, ← Nat.add_assoc] at h'
    rw [List.append_assoc]
    exact .step hi he (ih hd h')

end Run

/-- Code behind code that is decoded to its end is decoded as if it stood alone, with the offsets moved
by the length of the code in front: if this length is a multiple of four, or if the code behind it
neither holds a switch nor is cut short in one.  The failure is of the same kind as well. -/
theorem decode_append {policy : Policy} {front back code : Window}
    (hcode : code.toList = front.toList ++ back.toList)
    (hfront : (decode policy front).failure = none)
    (h : 4 ∣ front.size ∨ (decode policy back).AvoidsSwitches 0 back.toList) :
    (decode policy code).instructions = (decode policy front).instructions ++
      (decode policy back).instructions.map (·.moved front.size) ∧
    Option.Rel (Failure.Moved front.size) (decode policy back).failure
      (decode policy code).failure := by
  have hr : Run policy 0 front.toList (decode policy front) := run_decodeFrom policy 0 front
  obtain ⟨d, hd, hinst, hfail⟩ := (run_decodeFrom policy 0 back).moved h
  rw [← Window.length_toList] at hd
  have hrun := hr.append hfront hd
  have hdecode : decode policy code = _ := decodeFrom_of_run (hcode.symm ▸ hrun)
  rw [hdecode, hinst]
  exact ⟨rfl, hfail⟩

/-- Four instructions in front of a switch whose padding is cut short. -/
theorem decode_append_padding :
    (decode .resume (Window.ofList [0, 0, 0, 0, 0xB1, 0xAB, 0])).instructions =
        (decode .resume (Window.ofList [0, 0, 0, 0])).instructions ++ [⟨4, 0xB1, .none, 1⟩] ∧
      Option.Rel (Failure.Moved 4) (some ⟨1, .truncated ⟨4, 3⟩⟩)
        (decode .resume (Window.ofList [0, 0, 0, 0, 0xB1, 0xAB, 0])).failure := by
  have hback : decode .resume (Window.ofList [0xB1, 0xAB, 0]) =
      ⟨[⟨0, 0xB1, .none, 1⟩], some ⟨1, .truncated ⟨4, 3⟩⟩⟩ := by decide +kernel
  have hcode : (Window.ofList [0, 0, 0, 0, 0xB1, 0xAB, 0]).toList =
      (Window.ofList [0, 0, 0, 0]).toList ++ (Window.ofList [0xB1, 0xAB, 0]).toList := rfl
  have hfront : (decode .resume (Window.ofList [0, 0, 0, 0])).failure = none := by decide +kernel
  have h := decode_append hcode hfront (.inl (by decide))
  rw [hback] at h
  exact h

end Code

end Bytecode
