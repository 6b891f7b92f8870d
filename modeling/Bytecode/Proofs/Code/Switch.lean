import Bytecode.Proofs.View.Code

/-!
# Switches that decoding reaches

At every place that decoding reaches, the bytes that follow alone decide what becomes of a switch.
`Code.exactSwitch_decode` says this for every header: the entries are counted without a bound, and if
bytes of them are missing then not one of them is looked at.
-/

namespace Bytecode

open Reader Traced

/-! ## A table that is not there is not read -/

section Plans

variable {code : Window} {position t : Nat} {limit : Int}

namespace Operands

/-- A word of the header is read, and then what follows it. -/
theorem agrees_bind_word {β : Type} {f : Int → Reader Empty β} {next : ∀ a, Plan (f a)}
    (ht : t + 4 ≤ code.size) (hlimit : code.start + (t + 4 : Nat) ≤ limit)
    (hnext : ((next (wordAt code.toList t)).exec (code.drop (t + 4)).view).Agrees
      (f (wordAt code.toList t) (code.drop (t + 4))) (Access.ReadsBefore limit)) :
    ((Plan.bind (.signed 4) next).exec (code.drop t).view).Agrees
      ((s4 >>= f) (code.drop t)) (Access.ReadsBefore limit) := by
  have hword := s4_eq_ok (ε := Empty) (code.toList_drop t) (by rwa [Window.length_toList])
  refine Plan.agrees_bind (Plan.agrees_word _ fun _ _ ↦ ?_)
    (fun n _ ↦ Access.readsBefore_view _ _ _) ?_
  · simp only [Window.start_drop (Nat.le_of_add_right_le ht)]
    omega
  · intro a n hread
    cases hword.symm.trans hread
    rw [Window.drop_drop]
    exact hnext

/-- Without the bytes of all entries nothing is read. -/
theorem agrees_bind_entries {α β : Type} {p : Reader Empty α} {each : Plan p} {width n : Nat}
    {f : List α → Reader Empty β} {next : ∀ a, Plan (f a)} {u : Window}
    (hu : u.size < width * n) :
    ((Plan.bind (entriesPlan width n each) next).exec u.view).Agrees
      ((entries width n p >>= f) u) (Access.ReadsBefore limit) := by
  refine Plan.agrees_bind (Plan.agrees_bind (Plan.agrees_guard _ _)
    (fun n _ ↦ Access.readsBefore_view _ _ _) ?_) (fun n _ ↦ Access.readsBefore_view _ _ _) ?_
  · intro a m hrequire
    have hle := (require_eq_ok.mp hrequire).1
    omega
  · intro a m hentries
    cases (entries_eq_error p hu).symm.trans hentries

theorem agrees_bind_align {β : Type} {f : Unit → Reader Empty β} {next : ∀ a, Plan (f a)}
    (ht : t = position + padding position) (hsize : t ≤ code.size)
    (hnext : ((next ()).exec (code.drop t).view).Agrees (f () (code.drop t))
      (Access.ReadsBefore limit)) :
    ((Plan.bind (alignPlan position) next).exec (code.drop position).view).Agrees
      ((align position >>= f) (code.drop position)) (Access.ReadsBefore limit) := by
  refine Plan.agrees_bind (Plan.agrees_guard _ _) (fun n _ ↦ Access.readsBefore_view _ _ _) ?_
  intro a n hread
  have halign : align position (code.drop position) = .ok ((), padding position) :=
    align_eq_ok (by rw [Window.size_drop]; omega)
  cases halign.symm.trans hread
  rw [Window.drop_drop, ← ht]
  exact hnext

theorem agrees_plan_switch {s : Switch} (ht : t = position + padding position)
    (hheader : t + 4 * s.headerWords ≤ code.size)
    (h : code.size - (t + 4 * s.headerWords) < 4 * s.entryWords * s.count code.toList t) :
    ((plan position s.shape).exec (code.drop position).view).Agrees
      (read position s.shape (code.drop position))
      (Access.ReadsBefore (code.start + (t + 4 * s.headerWords : Nat))) := by
  cases s with
  | table =>
    simp only [Switch.headerWords, Switch.entryWords] at hheader h ⊢
    refine agrees_bind_align ht (by omega) ?_
    refine agrees_bind_word (by omega) (by omega) ?_
    refine agrees_bind_word (by omega) (by omega) ?_
    refine agrees_bind_word (by omega) (by omega) (agrees_bind_entries ?_)
    rw [Window.size_drop]
    exact h
  | lookup =>
    simp only [Switch.headerWords, Switch.entryWords] at hheader h ⊢
    refine agrees_bind_align ht (by omega) ?_
    refine agrees_bind_word (by omega) (by omega) ?_
    refine agrees_bind_word (by omega) (by omega) (agrees_bind_entries ?_)
    rw [Window.size_drop]
    exact h

end Operands

namespace Instruction

theorem exec_operandsPlan {opcode : UInt8} {e : Entry}
    (he : Catalog.standard.lookup opcode.toNat = some e) (v : View) :
    (operandsPlan position opcode).exec v = (Operands.plan position e.shape).exec v := by
  rw [operandsPlan]
  split
  · next e' he' =>
    cases he.symm.trans he'
    rfl
  · next he' => cases he.symm.trans he'

/-- If bytes of the entries are missing, decoding stops before it reads a byte behind the header. -/
theorem agrees_exec_switch {s : Switch} {o : Nat} (hop : code.toList[o]? = some s.opcode)
    (ht : t = o + 1 + padding (o + 1)) (hheader : t + 4 * s.headerWords ≤ code.size)
    (h : code.size - (t + 4 * s.headerWords) < 4 * s.entryWords * s.count code.toList t) :
    (exec code.view o).Agrees (.error (.truncated
        ⟨4 * s.entryWords * s.count code.toList t, code.size - (t + 4 * s.headerWords)⟩))
      (Access.ReadsBefore (code.start + (t + 4 * s.headerWords : Nat))) := by
  have hread := readOperands_switch_of_lt ht hheader h
  obtain ⟨e, he, hshape⟩ := s.lookup_opcode
  have hplan := Operands.agrees_plan_switch ht hheader h
  rw [← hshape, ← exec_operandsPlan he, hshape, ← readOperands_switch] at hplan
  have hexec := agrees_exec hop (fun _ _ ↦ Access.readsBefore_view _ _ _)
    (fun _ ↦ by simp only; omega) hplan
  rw [hread] at hexec
  exact hexec

end Instruction

end Plans

/-! ## Reaching a switch -/

namespace Code

/-- Decoding comes to `offset`: an instruction starts there, or decoding fails there. -/
def Decoded.Reaches (d : Decoded) (offset : Nat) : Prop :=
  (∃ i ∈ d.instructions, i.offset = offset) ∨ ∃ f, d.failure = some f ∧ f.offset = offset

/-- What is decoded from a place on that a run reaches is a run over the bytes from there on. -/
theorem Run.exists_of_reaches {policy : Policy} {offset o : Nat} {bytes : List UInt8} {d : Decoded}
    (h : Run policy offset bytes d) (ho : d.Reaches o) :
    ∃ before d', offset ≤ o ∧ Run policy o (bytes.drop (o - offset)) d' ∧
      d = ⟨before ++ d'.instructions, d'.failure⟩ := by
  induction h with
  | done => rcases ho with ⟨i, hi, -⟩ | ⟨f, hf, -⟩ <;> contradiction
  | @truncated offset opcode rest s hs =>
    obtain ⟨i, hi, -⟩ | ⟨f, hf, rfl⟩ := ho
    · cases hi
    · cases hf
      exact ⟨[], _, Nat.le_refl _, by simpa using .truncated hs, rfl⟩
  | @abort i b rest hp hi he =>
    have hoff : i.offset = o := by
      obtain ⟨j, hj, rfl⟩ | ⟨f, hf, rfl⟩ := ho
      · rw [List.mem_singleton.mp hj]
      · cases hf
        rfl
    subst hoff
    exact ⟨[], _, Nat.le_refl _, by simpa using .abort hp hi he, rfl⟩
  | @step i b rest d hi he hr ih =>
    by_cases hoff : i.offset = o
    · subst hoff
      exact ⟨[], _, Nat.le_refl _, by simpa using .step hi he hr, rfl⟩
    · have htail : d.Reaches o := by
        obtain ⟨j, hj, hjo⟩ | hf := ho
        · rcases List.mem_cons.mp hj with rfl | hj
          · contradiction
          · exact .inl ⟨j, hj, hjo⟩
        · exact .inr hf
      obtain ⟨before, d', hle, hd', rfl⟩ := ih htail
      refine ⟨i :: before, d', by omega, ?_, rfl⟩
      have hdrop : (b ++ rest).drop (o - i.offset) = rest.drop (o - (i.offset + i.length)) := by
        rw [← hi.length_eq] at hle ⊢
        rw [List.drop_append, List.drop_eq_nil_of_le (by omega), List.nil_append, Nat.sub_sub]
      rwa [hdrop]

section Reached

variable {policy : Policy} {code : Window} {o : Nat} {opcode : UInt8}

theorem exists_decode_eq_of_reaches (ho : (decode policy code).Reaches o) :
    ∃ before, decode policy code = ⟨before ++ (decodeFrom policy o (code.drop o)).instructions,
      (decodeFrom policy o (code.drop o)).failure⟩ := by
  obtain ⟨before, d, -, hd, hdecode⟩ := (run_decodeFrom policy 0 code).exists_of_reaches ho
  rw [Nat.sub_zero, ← Window.toList_drop] at hd
  rw [decodeFrom_of_run hd]
  exact ⟨before, hdecode⟩

/-- Decoding fails at a place that it reaches if the operands there are cut short. -/
theorem failure_of_reaches {shortfall : Shortfall} (ho : (decode policy code).Reaches o)
    (hop : code.toList[o]? = some opcode)
    (hread : Instruction.readOperands (o + 1) opcode (code.drop (o + 1)) =
      .error (.truncated shortfall)) :
    (decode policy code).failure = some ⟨o, .truncated shortfall⟩ := by
  obtain ⟨before, hdecode⟩ := exists_decode_eq_of_reaches ho
  rw [hdecode, decodeFrom_cons (Window.toList_drop_eq_cons hop), Window.drop_drop, hread]
  rfl

theorem mem_of_reaches {operands : Operands} {n : Nat} (ho : (decode policy code).Reaches o)
    (hop : code.toList[o]? = some opcode)
    (hread : Instruction.readOperands (o + 1) opcode (code.drop (o + 1)) = .ok (operands, n)) :
    ⟨o, opcode, operands, n + 1⟩ ∈ (decode policy code).instructions := by
  obtain ⟨before, hdecode⟩ := exists_decode_eq_of_reaches ho
  rw [hdecode, decodeFrom_cons (Window.toList_drop_eq_cons hop), Window.drop_drop, hread]
  refine List.mem_append_right _ ?_
  dsimp only
  split <;> exact List.mem_cons_self

end Reached

/-- What becomes of the switch `s` at `o` if its header starts at `t`. -/
structure ExactSwitch (policy : Policy) (code : Window) (s : Switch) (o t : Nat) : Prop where
  /-- The entries are counted over the integers. -/
  count_le : s.count code.toList t ≤ 2 ^ 32
  header_missing : code.size < t + 4 * s.headerWords →
    ∃ shortfall, (decode policy code).failure = some ⟨o, .truncated shortfall⟩
  complete : t + 4 * s.headerWords ≤ code.size →
    4 * s.entryWords * s.count code.toList t ≤ code.size - (t + 4 * s.headerWords) →
    ∃ i ∈ (decode policy code).instructions, i.offset = o ∧ i.opcode = s.opcode ∧
      i.length = t + 4 * s.headerWords + 4 * s.entryWords * s.count code.toList t - o ∧
      i.values = wordsAt code.toList t (s.headerWords + s.entryWords * s.count code.toList t)
  /-- Decoding fails for want of all entries at once, and it has read no byte behind the header. -/
  entries_missing : t + 4 * s.headerWords ≤ code.size →
    code.size - (t + 4 * s.headerWords) < 4 * s.entryWords * s.count code.toList t →
    (decode policy code).failure = some ⟨o, .truncated
      ⟨4 * s.entryWords * s.count code.toList t, code.size - (t + 4 * s.headerWords)⟩⟩ ∧
    (Instruction.exec code.view o).Agrees (.error (.truncated
        ⟨4 * s.entryWords * s.count code.toList t, code.size - (t + 4 * s.headerWords)⟩))
      (Access.ReadsBefore (code.start + (t + 4 * s.headerWords : Nat)))

/-- Every switch that decoding reaches is decoded exactly, whatever its header says and however many
bytes are left. -/
theorem exactSwitch_decode {policy : Policy} {code : Window} {s : Switch} {o t : Nat}
    (ho : (decode policy code).Reaches o) (hop : code.toList[o]? = some s.opcode)
    (ht : IsLeast {m | 4 ∣ m ∧ o + 1 ≤ m} t) : ExactSwitch policy code s o t := by
  have ht' := isLeast_iff_eq_add_padding.mp ht
  have hlt : o + 1 ≤ code.size := by
    obtain ⟨hlt, -⟩ := List.getElem?_eq_some_iff.mp hop
    rwa [Window.length_toList] at hlt
  refine ⟨s.count_le _ _, ?_, ?_, ?_⟩
  · intro hshort
    obtain ⟨shortfall, hread⟩ := Instruction.readOperands_switch_of_short ht' hlt hshort
    exact ⟨shortfall, failure_of_reaches ho hop hread⟩
  · intro hheader hle
    have hfits : t + 4 * s.headerWords + 4 * s.entryWords * s.count code.toList t ≤ code.size := by
      omega
    obtain ⟨operands, hread, hvalues⟩ := Instruction.readOperands_switch_of_le ht' hfits
    refine ⟨_, mem_of_reaches ho hop hread, rfl, rfl, ?_, hvalues⟩
    dsimp only
    omega
  · intro hheader hlt
    have hread := Instruction.readOperands_switch_of_lt ht' hheader hlt
    exact ⟨failure_of_reaches ho hop hread, Instruction.agrees_exec_switch hop ht' hheader hlt⟩

/-- The widest range there is, with one entry in place of four thousand millions. -/
theorem exactSwitch_decode_widest :
    let code := Window.ofList
      [0, 0xAA, 0, 0, 0, 0, 0, 0, 0x80, 0, 0, 0, 0x7F, 0xFF, 0xFF, 0xFF, 0, 0, 0, 0]
    (decode .resume code).failure = some ⟨1, .truncated ⟨2 ^ 34, 4⟩⟩ ∧
      ∀ a ∈ (Instruction.exec code.view 1).accesses, a.ReadsBefore 16 := by
  intro code
  have hfailure : (decode .resume code).failure = some ⟨1, .truncated ⟨2 ^ 34, 4⟩⟩ := by
    decide +kernel
  have hleast : IsLeast {m | 4 ∣ m ∧ 1 + 1 ≤ m} 4 := isLeast_iff_eq_add_padding.mpr (by decide)
  have h : ExactSwitch .resume code .table 1 4 :=
    exactSwitch_decode (.inr ⟨_, hfailure, rfl⟩) (by decide +kernel) hleast
  obtain ⟨-, hexec⟩ := h.entries_missing (by decide) (by decide +kernel)
  exact ⟨hfailure, hexec.accesses⟩

end Code

end Bytecode
