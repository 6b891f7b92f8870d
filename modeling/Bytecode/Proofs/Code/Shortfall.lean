import Bytecode.Proofs.Code.Append
import Bytecode.Proofs.Code.Switch
import Bytecode.Proofs.Operands.Shortfall

/-!
# What a truncation reports

Where decoding is cut short it reports how many bytes were needed and how many there were.  The
difference is a lower bound: with fewer additional bytes decoding is cut short again, at the same
place and for want of the same bytes (`Code.decode_extend`).  The number of bytes that there were is
the number of bytes from the read that failed to the end of the array, with one exception: if the
padding of a switch is missing, all bytes of the array are counted (`Code.decode_available_iff`).
-/

namespace Bytecode

open Reader

/-! ## More bytes -/

namespace Code

section Extend

variable {policy : Policy} {offset f : Nat} {bytes more : List UInt8} {d : Decoded} {s : Shortfall}

/-- A run that is cut short is cut short in the same way if fewer bytes are added than were missing.
-/
theorem Run.extend (h : Run policy offset bytes d) (hf : d.failure = some ⟨f, .truncated s⟩)
    (hmore : s.available + more.length < s.needed) :
    Run policy offset (bytes ++ more)
      ⟨d.instructions, some ⟨f, .truncated ⟨s.needed, s.available + more.length⟩⟩⟩ := by
  induction h with
  | done => cases hf
  | abort => cases hf
  | @truncated _ opcode rest _ hs =>
    cases hf
    -- The operands are read from a window of their own, which is as much longer as the array.
    let longer := Window.ofList (rest.toList ++ more)
    have hsize : longer.size - rest.size = more.length := by
      rw [Window.size_ofList, List.length_append, Window.length_toList, Nat.add_sub_cancel_left]
    have hprefix : rest.toList <+: longer.toList := by
      rw [Window.toList_ofList]
      exact List.prefix_append _ _
    have hread := (Instruction.incremental_readOperands _ opcode).truncated_extend hprefix hs
      (by rwa [hsize])
    rw [hsize] at hread
    rw [List.cons_append, ← Window.toList_ofList (rest.toList ++ more)]
    exact .truncated hread
  | step hi he _ ih =>
    rw [List.append_assoc]
    exact .step hi he (ih hf)

/-- The shortfall is a lower bound.  As long as fewer bytes are added than are reported to be missing,
the same instructions are decoded and decoding is cut short at the same place by the same demand. -/
theorem decode_extend {code longer : Window} (hlonger : longer.toList = code.toList ++ more)
    (hf : (decode policy code).failure = some ⟨f, .truncated s⟩)
    (hmore : more.length < s.needed - s.available) :
    decode policy longer = ⟨(decode policy code).instructions,
      some ⟨f, .truncated ⟨s.needed, s.available + more.length⟩⟩⟩ := by
  have hr : Run policy 0 code.toList (decode policy code) := run_decodeFrom policy 0 code
  have hlt : s.available + more.length < s.needed := Nat.add_lt_of_lt_sub' hmore
  have hrun := hr.extend hf hlt
  exact decodeFrom_of_run (hlonger.symm ▸ hrun)

/-- Of two entries of a switch three bytes are there, and four more do not complete them. -/
theorem decode_extend_entries :
    let code : List UInt8 := [0xAA, 0, 0, 0, 0, 0, 0, 9, 0, 0, 0, 0, 0, 0, 0, 1, 1, 2, 3]
    (decode .abort (Window.ofList code)).failure = some ⟨0, .truncated ⟨8, 3⟩⟩ ∧
      decode .abort (Window.ofList (code ++ [4, 5, 6, 7])) =
        ⟨[], some ⟨0, .truncated ⟨8, 7⟩⟩⟩ := by
  intro code
  have hdecode : decode .abort (Window.ofList code) = ⟨[], some ⟨0, .truncated ⟨8, 3⟩⟩⟩ := by
    decide +kernel
  have hf : (decode .abort (Window.ofList code)).failure = some ⟨0, .truncated ⟨8, 3⟩⟩ := by
    rw [hdecode]
  have hlonger : (Window.ofList (code ++ [4, 5, 6, 7])).toList =
      (Window.ofList code).toList ++ [4, 5, 6, 7] := by
    rw [Window.toList_ofList, Window.toList_ofList]
  have h := decode_extend hlonger hf (by decide)
  rw [hdecode] at h
  exact ⟨hf, h⟩

end Extend

end Code

/-! ## The read that fails -/

namespace Instruction

/-- The first demand of the instruction at `offset` that the code array does not meet. -/
def unmet? (code : List UInt8) (offset : Nat) : Option Demand := do
  let opcode ← code[offset]?
  let e ← Catalog.standard.lookup opcode.toNat
  Demand.firstUnmet? code.length (offset + 1) (Operands.demands code (offset + 1) e.shape)

/-- A switch stands at `offset`, and the code array ends in front of its table. -/
def MissesPadding (code : List UInt8) (offset : Nat) : Prop :=
  ∃ s : Switch, code[offset]? = some s.opcode ∧ code.length < offset + 1 + padding (offset + 1)

/-- `d` is the read that fails in the instruction at `offset`, and `s` is what is reported of it. -/
structure Diagnosis (code : List UInt8) (offset : Nat) (s : Shortfall) (d : Demand) : Prop where
  unmet : unmet? code offset = some d
  behind_opcode : offset < d.place
  place_le : d.place ≤ code.length
  lt_end : code.length < d.place + d.size
  /-- Bytes are counted from the place of the read. -/
  counted : ¬ MissesPadding code offset → s = ⟨d.size, code.length - d.place⟩
  /-- Bytes are counted from the start of the array. -/
  miscounted : MissesPadding code offset → s = ⟨offset + 1 + padding (offset + 1), code.length⟩

section Diagnosis

variable {code : Window} {offset : Nat} {opcode : UInt8} {s : Shortfall} {d : Demand}

theorem unmet?_eq {bytes : List UInt8} {e : Entry} (hop : bytes[offset]? = some opcode)
    (he : Catalog.standard.lookup opcode.toNat = some e) :
    unmet? bytes offset = Demand.firstUnmet? bytes.length (offset + 1)
      (Operands.demands bytes (offset + 1) e.shape) := by
  rw [unmet?, hop, Option.bind_eq_bind, Option.bind_some, he]
  rfl

/-- The first unmet demand, with what is reported of it in either case, is a diagnosis. -/
theorem diagnosis_of_firstUnmet? {e : Entry} (hop : code.toList[offset]? = some opcode)
    (he : Catalog.standard.lookup opcode.toNat = some e)
    (hd : Demand.firstUnmet? code.size (offset + 1)
      (Operands.demands code.toList (offset + 1) e.shape) = some d)
    (hcounted : ¬ MissesPadding code.toList offset → s = d.shortfall code.size)
    (hmiscounted : MissesPadding code.toList offset →
      s = ⟨offset + 1 + padding (offset + 1), code.size⟩) :
    Diagnosis code.toList offset s d := by
  obtain ⟨hlt, -⟩ := List.getElem?_eq_some_iff.mp hop
  rw [← Window.length_toList] at hd hcounted hmiscounted
  obtain ⟨hplace, hle, hend⟩ := Demand.range_of_firstUnmet? hlt hd
  exact ⟨(unmet?_eq hop he).trans hd, hplace, hle, hend, hcounted, hmiscounted⟩

/-- What is reported of operands that are cut short is a diagnosis. -/
theorem exists_diagnosis (hop : code.toList[offset]? = some opcode)
    (hread : readOperands (offset + 1) opcode (code.drop (offset + 1)) = .error (.truncated s)) :
    ∃ d, Diagnosis code.toList offset s d := by
  obtain ⟨hlt, -⟩ := List.getElem?_eq_some_iff.mp hop
  rw [Window.length_toList] at hlt
  cases he : Catalog.standard.lookup opcode.toNat with
  | none =>
    rw [readOperands, he] at hread
    cases hread
  | some e =>
    have hshape : readOperands (offset + 1) opcode = Operands.read (offset + 1) e.shape := by
      rw [readOperands, he]
    rw [hshape] at hread
    by_cases hp : MissesPadding code.toList offset
    · obtain ⟨sw, hsw, hshort⟩ := id hp
      obtain ⟨e', he', hsw'⟩ := sw.lookup_opcode
      cases hop.symm.trans hsw
      cases he.symm.trans he'
      rw [Window.length_toList] at hshort
      rw [hsw'] at hread
      cases (Operands.read_switch_of_padding sw hlt hshort).symm.trans hread
      have hd := @Operands.firstUnmet?_of_padding (offset + 1) sw _ code.toList hshort
      rw [← hsw'] at hd
      exact ⟨_, diagnosis_of_firstUnmet? hop he hd (absurd hp) fun _ ↦ rfl⟩
    · have hpadding : ∀ sw : Switch, e.shape = sw.shape →
          offset + 1 + padding (offset + 1) ≤ code.size := by
        intro sw hshape
        by_contra hshort
        refine hp ⟨sw, ?_, ?_⟩
        · rw [hop, Switch.opcode_eq_of_shape he hshape]
        · rw [Window.length_toList]
          exact Nat.not_le.mp hshort
      obtain ⟨d, hd, hs⟩ := Operands.demands_read hlt hpadding s hread
      exact ⟨d, diagnosis_of_firstUnmet? hop he hd (fun _ ↦ hs) fun h ↦ absurd h hp⟩

/-- A diagnosis counts the bytes behind the read that fails, and with them no more than those behind
the opcode, exactly if the padding of a switch is not what is missing. -/
theorem Diagnosis.available_iff {code : List UInt8} (h : Diagnosis code offset s d) :
    (s.available ≤ code.length - offset - 1 ∧ s.available = code.length - d.place) ↔
      ¬ MissesPadding code offset := by
  have hbehind := h.behind_opcode
  have hle := h.place_le
  constructor
  · rintro ⟨hav, -⟩ hp
    rw [h.miscounted hp] at hav
    dsimp only at hav
    omega
  · intro hp
    rw [h.counted hp]
    dsimp only
    omega

end Diagnosis

end Instruction

namespace Code

variable {policy : Policy} {code : Window} {f : Nat} {s : Shortfall}

/-- Decoding is cut short where the operands of an instruction are. -/
theorem readOperands_of_failure (hf : (decode policy code).failure = some ⟨f, .truncated s⟩) :
    ∃ opcode, code.toList[f]? = some opcode ∧
      Instruction.readOperands (f + 1) opcode (code.drop (f + 1)) = .error (.truncated s) := by
  obtain ⟨before, hdecode⟩ := exists_decode_eq_of_reaches (.inr ⟨_, hf, rfl⟩)
  rw [hdecode] at hf
  dsimp only at hf
  cases hw : (code.drop f).toList with
  | nil =>
    rw [decodeFrom_nil hw] at hf
    cases hf
  | cons opcode tail =>
    have hop : code.toList[f]? = some opcode := by
      rw [← List.head?_drop, ← Window.toList_drop, hw, List.head?_cons]
    refine ⟨opcode, hop, ?_⟩
    rw [decodeFrom_cons hw, Window.drop_drop] at hf
    cases hread : Instruction.readOperands (f + 1) opcode (code.drop (f + 1)) with
    | error fault =>
      cases fault with
      | truncated s' =>
        rw [hread] at hf
        cases hf
        rfl
      | invalid e => exact e.elim
    | ok r =>
      -- An instruction that is decoded is left behind, and no failure lies in front of it.
      rw [hread] at hf
      dsimp only at hf
      split at hf
      · cases hf
      · rw [Decoded.failure_cons] at hf
        have hle := (run_decodeFrom policy _ _).le_failure _ hf
        dsimp only at hle
        omega

/-- Of the bytes that a truncation reports, exactly those behind the read that fails are counted,
unless this read is that of the padding of a switch. -/
theorem decode_available_iff (hf : (decode policy code).failure = some ⟨f, .truncated s⟩) :
    ∃ d, Instruction.Diagnosis code.toList f s d ∧
      ((s.available ≤ code.size - f - 1 ∧ s.available = code.size - d.place) ↔
        ¬ Instruction.MissesPadding code.toList f) := by
  obtain ⟨opcode, hop, hread⟩ := readOperands_of_failure hf
  obtain ⟨d, hd⟩ := Instruction.exists_diagnosis hop hread
  have hiff := hd.available_iff
  rw [Window.length_toList] at hiff
  exact ⟨d, hd, hiff⟩

/-- Of the amount behind a wide prefix, which takes two bytes, the second one is missing. -/
theorem decode_available_wide :
    let code := Window.ofList [0, 0xC4, 0x84, 0, 1, 2]
    (decode .resume code).failure = some ⟨1, .truncated ⟨2, 1⟩⟩ ∧
      Instruction.Diagnosis code.toList 1 ⟨2, 1⟩ ⟨5, 2⟩ := by
  intro code
  have hf : (decode .resume code).failure = some ⟨1, .truncated ⟨2, 1⟩⟩ := by decide +kernel
  have hunmet : Instruction.unmet? code.toList 1 = some ⟨5, 2⟩ := by decide +kernel
  obtain ⟨d, hd, -⟩ := decode_available_iff hf
  cases hd.unmet.symm.trans hunmet
  exact ⟨hf, hd⟩

/-- One byte is left behind the opcode of a switch whose padding takes two, and three are reported. -/
theorem decode_available_padding :
    let code := Window.ofList [0, 0xAA, 0]
    (decode .resume code).failure = some ⟨1, .truncated ⟨4, 3⟩⟩ ∧ ¬ 3 ≤ code.size - 1 - 1 := by
  intro code
  exact ⟨by decide +kernel, by decide⟩

end Code

end Bytecode
