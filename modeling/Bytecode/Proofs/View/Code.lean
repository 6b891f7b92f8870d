import Bytecode.Proofs.Code.Tiling
import Bytecode.Proofs.Operands.Switch
import Bytecode.Proofs.View.Parts

/-!
# Decoding through views

Decoding keeps one view of the whole code array and cuts from it, at the offset that it has reached, a
view for the opcode and one for the operands.  `Code.agrees_exec` shows that this agrees with decoding
the window and never leaves it.  Together with the plans of the readers this gives the statement about
everything that reads a window: `Window.enclosesReaders`.
-/

namespace Bytecode

open Reader Traced

/-- Reads the instruction at `offset` through views: the opcode, the operands and their length. -/
def Instruction.exec (code : View) (offset : Nat) : Traced Empty (UInt8 × Operands × Nat) := do
  let front ← code.slice offset
  front.require 1
  let bytes ← front.fetch 1
  let rest ← code.slice (offset + 1)
  let r ← (operandsPlan (offset + 1) (bytes.headD 0)).exec rest
  pure (bytes.headD 0, r)

namespace Code

/-- Decodes the code array in view from `offset` on. -/
def execFrom (policy : Policy) (code : View) (offset : Nat) : Traced Empty Decoded :=
  if _h : offset < code.size then do
    match ← (Instruction.exec code offset).attempt with
    | .error fault => pure ⟨[], some ⟨offset, .truncated fault.shortfall⟩⟩
    | .ok (opcode, operands, n) =>
      let i : Instruction := ⟨offset, opcode, operands, n + 1⟩
      if policy = .abort ∧ i.entry? = none then
        pure ⟨[i], some ⟨offset, .unknownOpcode opcode.toNat⟩⟩
      else
        let d ← execFrom policy code (offset + (n + 1))
        pure (d.cons i)
  else pure ⟨[], none⟩
termination_by (code.size - offset).toNat
decreasing_by omega

/-- Decodes a code array, through a view of all its bytes. -/
def exec (policy : Policy) (code : View) : Traced Empty Decoded := do
  let data ← View.make code.buffer code.start code.size
  execFrom policy data 0

end Code

theorem Instruction.agrees_exec {w : Window} {P : Access → Prop} {offset : Nat} {opcode : UInt8}
    (hopcode : w.toList[offset]? = some opcode)
    (hview : ∀ n : Nat, n ≤ w.size → P ⟨.view, w.start + n, (w.size - n : Nat)⟩)
    (hread : P ⟨.read, w.start + offset, 1⟩)
    (hoperands : ((operandsPlan (offset + 1) opcode).exec (w.drop (offset + 1)).view).Agrees
      (readOperands (offset + 1) opcode (w.drop (offset + 1))) P) :
    (exec w.view offset).Agrees
      ((readOperands (offset + 1) opcode (w.drop (offset + 1))).map fun r ↦ (opcode, r)) P := by
  obtain ⟨hlt, -⟩ := List.getElem?_eq_some_iff.mp hopcode
  rw [Window.length_toList] at hlt
  have hsize : 1 ≤ (w.drop offset).size := by
    rw [Window.size_drop]
    omega
  have hbytes : (w.drop offset).take 1 = [opcode] := by
    rw [Window.take_eq, Window.toList_drop_eq_cons hopcode, List.take_succ_cons, List.take_zero]
  have hrequire := (w.drop offset).agrees_require (ε := Empty) (P := P) 1
  rw [if_pos hsize] at hrequire
  have hfetch := Window.agrees_fetch (ε := Empty) (P := P) hsize
    (by rw [Window.start_drop (Nat.le_of_lt hlt), Int.natCast_add]; exact hread)
  rw [hbytes] at hfetch
  refine (Window.agrees_slice (Nat.le_of_lt hlt) (hview _ (Nat.le_of_lt hlt))).bind_ok
    (hrequire.bind_ok (hfetch.bind_ok ((Window.agrees_slice hlt (hview _ hlt)).bind_ok ?_)))
  dsimp only [List.headD]
  cases hr : readOperands (offset + 1) opcode (w.drop (offset + 1)) with
  | error fault => exact (hr ▸ hoperands).bind_error _
  | ok r => exact (hr ▸ hoperands).bind_ok (.pure _)

namespace Code

theorem agrees_execFrom (policy : Policy) (w : Window) (offset : Nat) :
    (execFrom policy w.view offset).Agrees (.ok (decodeFrom policy offset (w.drop offset)))
      (Access.Inside w) := by
  rw [execFrom]
  rcases Nat.lt_or_ge offset w.size with hlt | hge
  · obtain ⟨opcode, tail, hw⟩ : ∃ opcode tail, (w.drop offset).toList = opcode :: tail :=
      List.exists_cons_of_length_pos (by rw [Window.length_toList, Window.size_drop]; omega)
    have hopcode : w.toList[offset]? = some opcode := by
      rw [Window.toList_drop] at hw
      rw [← List.head?_drop, hw, List.head?_cons]
    have hoperands := ((Instruction.operandsPlan (offset + 1) opcode).agrees
      (w.drop (offset + 1))).mono fun _ ↦ Access.Inside.of_drop
    have hexec := Instruction.agrees_exec hopcode (fun _ ↦ Access.inside_rest)
      (Access.inside_of_le hlt) hoperands
    rw [dif_pos (show (offset : Int) < w.view.size from Int.ofNat_lt.mpr hlt), decodeFrom_cons hw,
      Window.drop_drop]
    refine hexec.attempt.bind_ok ?_
    cases hr : Instruction.readOperands (offset + 1) opcode (w.drop (offset + 1)) with
    | error fault => exact .pure _
    | ok r =>
      -- The next instruction is read through views of the whole array again, not of what is left.
      have hrest := agrees_execFrom policy w (offset + (r.2 + 1))
      dsimp only [Except.map]
      by_cases ha : policy = .abort ∧ Instruction.entry? ⟨offset, opcode, r.1, r.2 + 1⟩ = none
      · rw [if_pos ha, if_pos ha]
        exact .pure _
      · rw [if_neg ha, if_neg ha, Window.drop_drop, Nat.add_assoc, Nat.add_comm 1]
        exact hrest.bind_ok (.pure _)
  · rw [dif_neg (show ¬ (offset : Int) < w.view.size from mt Int.ofNat_lt.mp (Nat.not_lt.mpr hge)),
      decodeFrom_nil]
    · exact .pure _
    · rw [Window.toList_drop, List.drop_eq_nil_of_le (by rwa [Window.length_toList])]
termination_by w.size - offset

theorem agrees_exec (policy : Policy) (w : Window) :
    (exec policy w.view).Agrees (.ok (decode policy w)) (Access.Inside w) := by
  have hdrop : w.drop 0 = w := by
    simp only [Window.drop, Nat.zero_min, Nat.add_zero, Nat.sub_zero]
  have hinside : Access.Inside w ⟨.view, w.start, w.size⟩ := Access.inside_front (Nat.le_refl _)
  have h := agrees_execFrom policy w 0
  rw [hdrop] at h
  exact (Window.agrees_make hinside hinside).bind_ok h

/-- Every decoded instruction is read from the bytes behind its opcode. -/
theorem readOperands_of_mem_decode {policy : Policy} {w : Window} {i : Instruction}
    (hi : i ∈ (decode policy w).instructions) :
    ∃ n, i.offset + i.length = i.offset + 1 + n ∧ i.offset < w.size ∧
      Instruction.readOperands (i.offset + 1) i.opcode (w.drop (i.offset + 1)) =
        .ok (i.operands, n) := by
  obtain ⟨before, b, after, hw, hocc, hoff⟩ := (run_decodeFrom policy 0 w).exists_occupies i hi
  have hdrop : (w.drop i.offset).toList = b ++ after := by
    rw [Window.toList_drop, hw, hoff, Nat.zero_add, List.drop_left]
  obtain ⟨n, hlength, hread⟩ := readOperands_of_occupies hocc hdrop
  rw [Window.drop_drop] at hread
  have hsize := congrArg List.length hw
  rw [Window.length_toList, List.length_append, List.length_append, hocc.length_eq] at hsize
  exact ⟨n, by omega, by omega, hread⟩

/-- What is decoded from a window is the same as from a copy of its bytes; through views, it is decoded
without leaving the window; and the tables of the switches are aligned from the start of the window,
wherever the window lies in the buffer. -/
structure Confined (policy : Policy) (w : Window) : Prop where
  copy : decode policy w = decode policy (Window.ofList w.toList)
  result : (exec policy w.view).result = .ok (decode policy w)
  inside : ∀ a ∈ (exec policy w.view).accesses, a.Inside w
  aligned : ∀ i ∈ (decode policy w).instructions, ∀ s : Switch, i.opcode = s.opcode →
    ∀ t, IsLeast {m | 4 ∣ m ∧ i.offset + 1 ≤ m} t →
      let words := s.headerWords + s.entryWords * s.count w.buffer.toList (w.start + t)
      i.offset + i.length = t + 4 * words ∧ i.values = wordsAt w.buffer.toList (w.start + t) words

theorem confined (policy : Policy) (w : Window) : Confined policy w where
  copy := by
    have hrun := run_decodeFrom policy 0 w
    rw [← Window.toList_ofList w.toList] at hrun
    exact (decodeFrom_of_run hrun).symm
  result := (agrees_exec policy w).result
  inside := (agrees_exec policy w).accesses
  aligned := by
    intro i hi s hs t ht
    obtain ⟨n, hlength, hlt, hread⟩ := readOperands_of_mem_decode hi
    rw [hs] at hread
    obtain ⟨hfits, hend, hvalues⟩ :=
      Instruction.values_of_readOperands_switch (isLeast_iff_eq_add_padding.mp ht) hlt hread
    have hheader := Nat.le_of_add_right_le hfits
    have hwords : t + 4 * s.headerWords + 4 * s.entryWords * s.count w.toList t =
        t + 4 * (s.headerWords + s.entryWords * s.count w.toList t) := by
      rw [Nat.mul_assoc, Nat.add_assoc, ← Nat.mul_add]
    rw [hwords, Switch.count_toList hheader] at hfits hend
    rw [Switch.count_toList hheader, wordsAt_toList hfits] at hvalues
    exact ⟨hlength.trans hend, hvalues⟩

end Code

/-! ## Everything that reads a window -/

/-- A stretch that was touched, made a window of its own, hands on no more than the window that it was
cut from. -/
theorem Access.Inside.exists_window {w : Window} {a : Access} (h : a.Inside w) :
    ∃ u : Window, u.view = ⟨w.buffer, a.start, a.size⟩ ∧ ∀ b : Access, b.Inside u → b.Inside w := by
  obtain ⟨hstart, hsize, hend⟩ := h
  have hwithin := w.within
  refine ⟨⟨w.buffer, a.start.toNat, a.size.toNat, by omega⟩, ?_, ?_⟩
  · simp only [Window.view, View.mk.injEq, true_and]
    omega
  · rintro b ⟨hstart', hsize', hend'⟩
    simp only at hstart' hend'
    exact ⟨by omega, hsize', by omega⟩

namespace Window

/-- No reader takes bytes from outside the window. -/
structure EnclosesReaders (w : Window) : Prop where
  operands (position : Nat) (opcode : UInt8) :
    (Instruction.operandsPlan position opcode).Confined w
  code (policy : Code.Policy) : Code.Confined policy w
  pool : Pool.plan.Confined w
  attributes (pool : Pool) : (Attribute.plan pool).Confined w
  members (owner : FlagOwner) (pool : Pool) : (Member.plan owner pool).Confined w
  handlers : Handler.plan.Confined w
  codeAttribute (pool : Pool) : (CodeAttribute.plan pool).Confined w
  classFile : ClassFile.plan.Confined w
  /-- The bytes of an attribute and of its code are views that are read later. -/
  nested (a : Access) (h : a.Inside w) : ∃ u : Window, u.view = ⟨w.buffer, a.start, a.size⟩ ∧
    ∀ b : Access, b.Inside u → b.Inside w

/-- Every reader, on every window of every buffer, gives what it gives on a copy of the bytes of the
window, and through views it reads them without ever going out of range. -/
theorem enclosesReaders (w : Window) : w.EnclosesReaders where
  operands position opcode := (Instruction.operandsPlan position opcode).confined w
  code policy := Code.confined policy w
  pool := Pool.plan.confined w
  attributes pool := (Attribute.plan pool).confined w
  members owner pool := (Member.plan owner pool).confined w
  handlers := Handler.plan.confined w
  codeAttribute pool := (CodeAttribute.plan pool).confined w
  classFile := ClassFile.plan.confined w
  nested _ h := h.exists_window

end Window

end Bytecode
