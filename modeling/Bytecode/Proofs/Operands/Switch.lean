import Bytecode.Code
import Bytecode.Proofs.Operands.Layout
import Mathlib.Order.Bounds.Basic

/-!
# Switch tables

The operands of a switch are words of four bytes that start at the next multiple of four: a header,
which says how many entries there are, and the entries.  This module says for every header and every
amount of remaining bytes what is read.  The number of entries is a number without bound, so that no
header makes a missing table look like a short one.
-/

namespace Bytecode

/-! ## Words by position -/

/-- The number in two's complement that stands in the four bytes at `t`. -/
def wordAt (bytes : List UInt8) (t : Nat) : Int :=
  Word.signed 4 (Word.value ((bytes.drop t).take 4))

/-- The `n` numbers that stand one behind the other from `t` on. -/
def wordsAt (bytes : List UInt8) (t n : Nat) : List Int :=
  (List.range n).map fun k ↦ wordAt bytes (t + 4 * k)

@[simp] theorem wordsAt_zero (bytes : List UInt8) (t : Nat) : wordsAt bytes t 0 = [] := rfl

theorem wordsAt_succ (bytes : List UInt8) (t n : Nat) :
    wordsAt bytes t (n + 1) = wordAt bytes t :: wordsAt bytes (t + 4) n := by
  simp only [wordsAt, List.range_succ_eq_map, List.map_cons, List.map_map, Nat.mul_zero,
    Nat.add_zero]
  refine congrArg _ (List.map_congr_left fun k _ ↦ ?_)
  simp only [Function.comp_apply, Nat.mul_succ]
  congr 1
  omega

theorem wordsAt_add (bytes : List UInt8) (t m n : Nat) :
    wordsAt bytes t (m + n) = wordsAt bytes t m ++ wordsAt bytes (t + 4 * m) n := by
  induction m generalizing t with
  | zero => simp
  | succ m ih =>
    rw [Nat.succ_add, wordsAt_succ, wordsAt_succ, ih, List.cons_append, Nat.mul_succ,
      Nat.add_assoc, Nat.add_comm 4]

theorem wordAt_drop (bytes : List UInt8) (m t : Nat) :
    wordAt (bytes.drop m) t = wordAt bytes (m + t) := by
  rw [wordAt, wordAt, List.drop_drop]

theorem wordsAt_drop (bytes : List UInt8) (m t n : Nat) :
    wordsAt (bytes.drop m) t n = wordsAt bytes (m + t) n := by
  simp only [wordsAt, wordAt_drop, Nat.add_assoc]

/-- A word of a window stands in the buffer, behind the start of the window. -/
theorem wordAt_toList {w : Window} {t : Nat} (h : t + 4 ≤ w.size) :
    wordAt w.toList t = wordAt w.buffer.toList (w.start + t) := by
  have hbytes : (w.toList.drop t).take 4 = (w.buffer.toList.drop (w.start + t)).take 4 := by
    rw [Window.toList_eq, List.drop_take, List.drop_drop, List.take_take, Nat.min_eq_left (by omega)]
  rw [wordAt, wordAt, hbytes]

theorem wordsAt_toList {w : Window} {t n : Nat} (h : t + 4 * n ≤ w.size) :
    wordsAt w.toList t n = wordsAt w.buffer.toList (w.start + t) n := by
  refine List.map_congr_left fun k hk ↦ ?_
  have hlt := List.mem_range.mp hk
  rw [wordAt_toList (by omega), Nat.add_assoc]

/-- What a word can stand for. -/
theorem wordAt_range (bytes : List UInt8) (t : Nat) :
    -(2 ^ 31 : Int) ≤ wordAt bytes t ∧ wordAt bytes t < 2 ^ 31 := by
  have hlt : Word.value ((bytes.drop t).take 4) < 256 ^ 4 := by
    refine (Word.value_lt _).trans_le (Nat.pow_le_pow_right (by decide) ?_)
    exact List.length_take_le 4 _
  have hrange := Word.signed_range hlt
  rw [wordAt]
  omega

/-! ## The two switches -/

/-- The instructions with a table of jumps. -/
inductive Switch where
  /-- Jumps for a range of numbers. -/
  | table
  /-- Jumps for listed numbers. -/
  | lookup
deriving DecidableEq, Repr

namespace Switch

def opcode : Switch → UInt8
  | table => 0xAA
  | lookup => 0xAB

def shape : Switch → Shape
  | table => .tableSwitch
  | lookup => .lookupSwitch

/-- The number of words before the entries: the default jump, and the ends of the range or the number
of pairs. -/
def headerWords : Switch → Nat
  | table => 3
  | lookup => 2

/-- The number of words of an entry: a jump, or a number and its jump. -/
def entryWords : Switch → Nat
  | table => 1
  | lookup => 2

/-- The number of entries of the table whose header starts at `t`. -/
def count (bytes : List UInt8) (t : Nat) : Switch → Nat
  | table => (wordAt bytes (t + 8) - wordAt bytes (t + 4) + 1).toNat
  | lookup => (wordAt bytes (t + 4)).toNat

theorem count_le (bytes : List UInt8) (t : Nat) (s : Switch) : s.count bytes t ≤ 2 ^ 32 := by
  cases s with
  | table =>
    have hlow := wordAt_range bytes (t + 4)
    have hhigh := wordAt_range bytes (t + 8)
    simp only [count]
    omega
  | lookup =>
    have hpairs := wordAt_range bytes (t + 4)
    simp only [count]
    omega

theorem count_drop (bytes : List UInt8) (m t : Nat) (s : Switch) :
    s.count (bytes.drop m) t = s.count bytes (m + t) := by
  cases s <;> simp only [count, wordAt_drop, Nat.add_assoc]

theorem count_toList {w : Window} {t : Nat} {s : Switch} (h : t + 4 * s.headerWords ≤ w.size) :
    s.count w.toList t = s.count w.buffer.toList (w.start + t) := by
  cases s <;> simp only [headerWords] at h <;> simp only [count, Nat.add_assoc] <;>
    simp (disch := omega) only [wordAt_toList]

theorem lookup_opcode (s : Switch) :
    ∃ e, Catalog.standard.lookup s.opcode.toNat = some e ∧ e.shape = s.shape := by
  cases s with
  | table => exact ⟨⟨0xAA, "tableswitch", .tableSwitch, false⟩, by decide +kernel, rfl⟩
  | lookup => exact ⟨⟨0xAB, "lookupswitch", .lookupSwitch, false⟩, by decide +kernel, rfl⟩

/-- No other opcode has the shape of a switch. -/
theorem opcode_eq_of_shape {opcode : UInt8} {e : Entry} {s : Switch}
    (h : Catalog.standard.lookup opcode.toNat = some e) (hs : e.shape = s.shape) :
    opcode = s.opcode := by
  have hall : ∀ e ∈ Catalog.standard.entries, ∀ s ∈ [table, lookup], e.shape = s.shape →
      e.opcode = s.opcode.toNat := by decide +kernel
  obtain ⟨hmem, hop⟩ := Catalog.standard.lookup_eq_some_iff.mp h
  have hopcode := hall e hmem s (by cases s <;> simp) hs
  rw [hop] at hopcode
  exact UInt8.toNat_inj.mp (by exact_mod_cast hopcode)

end Switch

/-- The table of a switch starts at the next multiple of four. -/
theorem isLeast_iff_eq_add_padding {position t : Nat} :
    IsLeast {m | 4 ∣ m ∧ position ≤ m} t ↔ t = position + padding position := by
  have hlt := padding_lt position
  have hmod := add_padding_mod position
  have hleast : IsLeast {m | 4 ∣ m ∧ position ≤ m} (position + padding position) := by
    refine ⟨⟨Nat.dvd_of_mod_eq_zero hmod, Nat.le_add_right _ _⟩, ?_⟩
    rintro m ⟨hm, hle⟩
    omega
  constructor
  · intro h
    exact h.unique hleast
  · rintro rfl
    exact hleast

namespace Operands

open Reader

/-! ## Reading the entries -/

section Words

variable {bytes : List UInt8} {u : Window} {t : Nat}

theorem s4_eq_ok {ε : Type} (hu : u.toList = bytes.drop t) (ht : t + 4 ≤ bytes.length) :
    (s4 : Reader ε Int) u = .ok (wordAt bytes t, 4) := by
  have hsize : 4 ≤ u.size := by
    rw [← Window.length_toList, hu, List.length_drop]
    omega
  refine (reads_signed 4 u _ 4).mpr ⟨u.toList.take 4, u.toList.drop 4, by simp, ?_, ?_, ?_⟩
  · simp [hsize]
  · simp [hsize]
  · rw [wordAt, hu]

theorem toList_drop_of_eq (hu : u.toList = bytes.drop t) (n : Nat) :
    (u.drop n).toList = bytes.drop (t + n) := by
  rw [Window.toList_drop, hu, List.drop_drop]

theorem bounded_s4 {ε : Type} : Bounded (s4 : Reader ε Int) := .signed 4

theorem times_s4_eq_ok {ε : Type} {n : Nat} (hu : u.toList = bytes.drop t)
    (ht : t + 4 * n ≤ bytes.length) :
    times n (s4 : Reader ε Int) u = .ok (wordsAt bytes t n, 4 * n) := by
  induction n generalizing u t with
  | zero => rfl
  | succ n ih =>
    rw [times_succ bounded_s4, wordsAt_succ]
    have hhead := s4_eq_ok (ε := ε) hu (by omega)
    have htail := ih (toList_drop_of_eq hu 4) (by omega)
    exact bounded_s4.bind_ok hhead ((bounded_s4.times n).bind_ok htail rfl rfl) (by omega)

theorem bounded_readCase : Bounded readCase := .bind fun _ ↦ .bind fun _ ↦ .pure _

theorem readCase_eq_ok (hu : u.toList = bytes.drop t) (ht : t + 8 ≤ bytes.length) :
    readCase u = .ok ((wordAt bytes t, wordAt bytes (t + 4)), 8) := by
  have hvalue := s4_eq_ok (ε := Empty) hu (by omega)
  have hjump := s4_eq_ok (ε := Empty) (toList_drop_of_eq hu 4) (by omega)
  exact bounded_s4.bind_ok hvalue (bounded_s4.bind_ok hjump rfl rfl) rfl

theorem times_readCase_eq_ok {n : Nat} (hu : u.toList = bytes.drop t)
    (ht : t + 8 * n ≤ bytes.length) :
    ∃ cases, times n readCase u = .ok (cases, 8 * n) ∧
      (cases.flatMap fun (value, jump) ↦ [value, jump]) = wordsAt bytes t (2 * n) := by
  induction n generalizing u t with
  | zero => exact ⟨[], rfl, rfl⟩
  | succ n ih =>
    have hhead := readCase_eq_ok hu (by omega)
    obtain ⟨cases, htail, hcases⟩ := ih (toList_drop_of_eq hu 8) (by omega)
    refine ⟨(wordAt bytes t, wordAt bytes (t + 4)) :: cases, ?_, ?_⟩
    · rw [times_succ bounded_readCase]
      exact bounded_readCase.bind_ok hhead ((bounded_readCase.times n).bind_ok htail rfl rfl)
        (by omega)
    · rw [List.flatMap_cons, hcases, Nat.mul_succ, wordsAt_succ, wordsAt_succ]
      rfl

theorem entries_eq_ok {α : Type} {p : Reader Empty α} {width n : Nat} {r : List α × Nat}
    (hu : width * n ≤ u.size) (hp : times n p (u.drop 0) = .ok r) :
    entries width n p u = .ok r :=
  bind_eq_ok.mpr ⟨(), 0, r.2, require_eq_ok.mpr ⟨hu, rfl⟩, Nat.zero_le _, hp, Nat.zero_add _⟩

/-- If bytes of the entries are missing, none of the entries is read: what reads an entry does not
matter. -/
theorem entries_eq_error {α : Type} (p : Reader Empty α) {width n : Nat}
    (hu : u.size < width * n) : entries width n p u = .error (.truncated ⟨width * n, u.size⟩) :=
  bind_of_error (if_neg (Nat.not_le.mpr hu))

theorem bounded_entries {α : Type} {p : Reader Empty α} (hp : Bounded p) (width n : Nat) :
    Bounded (entries width n p) := .bind fun _ ↦ hp.times n

end Words

/-! ## Reading a switch -/

section Reading

variable {position : Nat} {w : Window}

theorem align_eq_ok (h : padding position ≤ w.size) :
    align position w = .ok ((), padding position) := if_pos h

/-- Behind the header only the entries are left to read. -/
theorem readTableSwitch_eq (h : padding position + 12 ≤ w.size) :
    ∃ u : Window, u.toList = w.toList.drop (padding position + 12) ∧
      readTableSwitch position w =
        (entries 4 (Switch.table.count w.toList (padding position)) s4 u).map fun r ↦
          (.tableSwitch (wordAt w.toList (padding position))
            (wordAt w.toList (padding position + 4)) (wordAt w.toList (padding position + 8)) r.1,
            padding position + 12 + r.2) := by
  have hlength := w.length_toList
  have hu₀ := w.toList_drop (padding position)
  have hu₁ := toList_drop_of_eq hu₀ 4
  have hu₂ := toList_drop_of_eq hu₁ 4
  have hu₃ := toList_drop_of_eq hu₂ 4
  have hdefault := s4_eq_ok (ε := Empty) hu₀ (by omega)
  have hlow := s4_eq_ok (ε := Empty) hu₁ (by omega)
  have hhigh := s4_eq_ok (ε := Empty) hu₂ (by omega)
  refine ⟨_, hu₃, ?_⟩
  have halign := align_eq_ok (Nat.le_of_add_right_le h)
  rw [readTableSwitch, bind_of_ok halign (Nat.le_of_add_right_le h),
    bind_of_ok hdefault (bounded_s4 hdefault), bind_of_ok hlow (bounded_s4 hlow),
    bind_of_ok hhigh (bounded_s4 hhigh), (bounded_entries bounded_s4 _ _).bind_pure_apply,
    Switch.count]
  cases entries 4 _ s4 (((w.drop (padding position)).drop 4).drop 4 |>.drop 4) with
  | error e => rfl
  | ok r => simp only [Except.map, Except.ok.injEq, Prod.mk.injEq, true_and]; omega

theorem readLookupSwitch_eq (h : padding position + 8 ≤ w.size) :
    ∃ u : Window, u.toList = w.toList.drop (padding position + 8) ∧
      readLookupSwitch position w =
        (entries 8 (Switch.lookup.count w.toList (padding position)) readCase u).map fun r ↦
          (.lookupSwitch (wordAt w.toList (padding position))
            (wordAt w.toList (padding position + 4)) r.1, padding position + 8 + r.2) := by
  have hlength := w.length_toList
  have hu₀ := w.toList_drop (padding position)
  have hu₁ := toList_drop_of_eq hu₀ 4
  have hu₂ := toList_drop_of_eq hu₁ 4
  have hdefault := s4_eq_ok (ε := Empty) hu₀ (by omega)
  have hpairs := s4_eq_ok (ε := Empty) hu₁ (by omega)
  refine ⟨_, hu₂, ?_⟩
  have halign := align_eq_ok (Nat.le_of_add_right_le h)
  rw [readLookupSwitch, bind_of_ok halign (Nat.le_of_add_right_le h),
    bind_of_ok hdefault (bounded_s4 hdefault), bind_of_ok hpairs (bounded_s4 hpairs),
    (bounded_entries bounded_readCase _ _).bind_pure_apply, Switch.count]
  cases entries 8 _ readCase (((w.drop (padding position)).drop 4).drop 4) with
  | error e => rfl
  | ok r => simp only [Except.map, Except.ok.injEq, Prod.mk.injEq, true_and]; omega

/-- A switch that was read takes up its padding, its header and its entries. -/
theorem Layout.le_length_of_switch {s : Switch} {o : Operands} {b : List UInt8}
    (h : Layout position s.shape o b) : padding position + 4 * s.headerWords ≤ b.length := by
  cases s with
  | table =>
    cases h with
    | tableSwitch hs _ hwords =>
      rw [List.length_append, hs, length_sequence (fun _ _ ↦ Assembly.Field.length_of_write) hwords]
      simp only [Switch.headerWords, List.length_cons, Assembly.Field.width]
      omega
  | lookup =>
    cases h with
    | lookupSwitch hs _ hwords =>
      rw [List.length_append, hs, length_sequence (fun _ _ ↦ Assembly.Field.length_of_write) hwords]
      simp only [Switch.headerWords, List.length_cons, Assembly.Field.width]
      omega

theorem read_switch_of_short {s : Switch} (h : w.size < padding position + 4 * s.headerWords) :
    ∃ shortfall, read position s.shape w = .error (.truncated shortfall) := by
  cases hread : read position s.shape w with
  | error fault =>
    cases fault with
    | truncated shortfall => exact ⟨shortfall, rfl⟩
    | invalid e => exact e.elim
  | ok r =>
    obtain ⟨b, rest, hw, -, hlayout⟩ := (reads_read position s.shape).of_apply hread
    have hle := hlayout.le_length_of_switch
    have hsize := congrArg List.length hw
    rw [Window.length_toList, List.length_append] at hsize
    omega

/-- If the entries are there, the operands are the words of the header and the entries. -/
theorem read_switch_of_le {s : Switch} (h : padding position + 4 * s.headerWords +
      4 * s.entryWords * s.count w.toList (padding position) ≤ w.size) :
    ∃ o : Operands, read position s.shape w = .ok (o, padding position + 4 * s.headerWords +
        4 * s.entryWords * s.count w.toList (padding position)) ∧
      o.values = wordsAt w.toList (padding position)
        (s.headerWords + s.entryWords * s.count w.toList (padding position)) := by
  have hlength := w.length_toList
  cases s with
  | table =>
    simp only [Switch.headerWords, Switch.entryWords, Nat.mul_one, Nat.one_mul] at h ⊢
    obtain ⟨u, hu, hread⟩ := readTableSwitch_eq (Nat.le_of_add_right_le h)
    have husize : u.size = w.size - (padding position + 12) := by
      rw [← Window.length_toList, hu, List.length_drop, hlength]
    have hjumps := times_s4_eq_ok (ε := Empty) (toList_drop_of_eq hu 0)
      (n := Switch.table.count w.toList (padding position)) (by omega)
    rw [entries_eq_ok (by omega) hjumps] at hread
    refine ⟨_, hread, ?_⟩
    rw [wordsAt_add]
    rfl
  | lookup =>
    simp only [Switch.headerWords, Switch.entryWords] at h ⊢
    obtain ⟨u, hu, hread⟩ := readLookupSwitch_eq (Nat.le_of_add_right_le h)
    have husize : u.size = w.size - (padding position + 8) := by
      rw [← Window.length_toList, hu, List.length_drop, hlength]
    obtain ⟨cases, hcases, hvalues⟩ := times_readCase_eq_ok (toList_drop_of_eq hu 0)
      (n := Switch.lookup.count w.toList (padding position)) (by omega)
    rw [entries_eq_ok (by omega) hcases] at hread
    refine ⟨_, hread, ?_⟩
    rw [wordsAt_add, values, hvalues]
    rfl

/-- If bytes of the entries are missing, the shortfall counts the bytes of all of them. -/
theorem read_switch_of_lt {s : Switch} (hheader : padding position + 4 * s.headerWords ≤ w.size)
    (h : w.size - (padding position + 4 * s.headerWords) <
      4 * s.entryWords * s.count w.toList (padding position)) :
    read position s.shape w = .error (.truncated
      ⟨4 * s.entryWords * s.count w.toList (padding position),
        w.size - (padding position + 4 * s.headerWords)⟩) := by
  have hlength := w.length_toList
  cases s with
  | table =>
    obtain ⟨u, hu, hread⟩ := readTableSwitch_eq hheader
    have husize : u.size = w.size - (padding position + 12) := by
      rw [← Window.length_toList, hu, List.length_drop, hlength]
    rw [entries_eq_error s4 (husize.symm ▸ h), husize] at hread
    exact hread
  | lookup =>
    obtain ⟨u, hu, hread⟩ := readLookupSwitch_eq hheader
    have husize : u.size = w.size - (padding position + 8) := by
      rw [← Window.length_toList, hu, List.length_drop, hlength]
    rw [entries_eq_error readCase (husize.symm ▸ h), husize] at hread
    exact hread

end Reading

end Operands

/-! ## Switches in a code array

From here on places are counted from the front of the code array, as the padding is. -/

namespace Instruction

variable {code : Window} {position t : Nat} {s : Switch}

theorem readOperands_switch (position : Nat) (s : Switch) :
    readOperands position s.opcode = Operands.read position s.shape := by
  obtain ⟨e, he, hshape⟩ := s.lookup_opcode
  rw [readOperands, he, ← hshape]

theorem readOperands_switch_of_short (ht : t = position + padding position)
    (hposition : position ≤ code.size) (h : code.size < t + 4 * s.headerWords) :
    ∃ shortfall, readOperands position s.opcode (code.drop position) =
      .error (.truncated shortfall) := by
  rw [readOperands_switch]
  refine Operands.read_switch_of_short ?_
  rw [Window.size_drop]
  omega

theorem readOperands_switch_of_le (ht : t = position + padding position)
    (h : t + 4 * s.headerWords + 4 * s.entryWords * s.count code.toList t ≤ code.size) :
    ∃ o : Operands, readOperands position s.opcode (code.drop position) = .ok (o,
        t + 4 * s.headerWords + 4 * s.entryWords * s.count code.toList t - position) ∧
      o.values =
        wordsAt code.toList t (s.headerWords + s.entryWords * s.count code.toList t) := by
  have hcount : s.count (code.drop position).toList (padding position) =
      s.count code.toList t := by rw [Window.toList_drop, Switch.count_drop, ht]
  have hle : padding position + 4 * s.headerWords +
      4 * s.entryWords * s.count (code.drop position).toList (padding position) ≤
        (code.drop position).size := by
    rw [hcount, Window.size_drop]
    omega
  rw [readOperands_switch]
  obtain ⟨o, hread, hvalues⟩ := Operands.read_switch_of_le hle
  rw [hcount, Window.toList_drop, wordsAt_drop, ← ht] at hvalues
  refine ⟨o, ?_, hvalues⟩
  rw [hread, hcount]
  congr 2
  omega

theorem readOperands_switch_of_lt (ht : t = position + padding position)
    (hheader : t + 4 * s.headerWords ≤ code.size)
    (h : code.size - (t + 4 * s.headerWords) < 4 * s.entryWords * s.count code.toList t) :
    readOperands position s.opcode (code.drop position) = .error (.truncated
      ⟨4 * s.entryWords * s.count code.toList t, code.size - (t + 4 * s.headerWords)⟩) := by
  have hcount : s.count (code.drop position).toList (padding position) =
      s.count code.toList t := by rw [Window.toList_drop, Switch.count_drop, ht]
  have hrest : (code.drop position).size - (padding position + 4 * s.headerWords) =
      code.size - (t + 4 * s.headerWords) := by
    rw [Window.size_drop]
    omega
  rw [readOperands_switch, Operands.read_switch_of_lt (by rw [Window.size_drop]; omega)
    (by rw [hcount, hrest]; exact h), hcount, hrest]

/-- A switch that was read is there as a whole. -/
theorem values_of_readOperands_switch (ht : t = position + padding position)
    (hposition : position ≤ code.size) {o : Operands} {n : Nat}
    (h : readOperands position s.opcode (code.drop position) = .ok (o, n)) :
    t + 4 * s.headerWords + 4 * s.entryWords * s.count code.toList t ≤ code.size ∧
      position + n = t + 4 * s.headerWords + 4 * s.entryWords * s.count code.toList t ∧
      o.values =
        wordsAt code.toList t (s.headerWords + s.entryWords * s.count code.toList t) := by
  rcases Nat.lt_or_ge code.size (t + 4 * s.headerWords) with hshort | hheader
  · obtain ⟨shortfall, herror⟩ := readOperands_switch_of_short ht hposition hshort
    cases h.symm.trans herror
  · rcases Nat.lt_or_ge (code.size - (t + 4 * s.headerWords))
      (4 * s.entryWords * s.count code.toList t) with hlt | hle
    · cases h.symm.trans (readOperands_switch_of_lt ht hheader hlt)
    · have hfits : t + 4 * s.headerWords + 4 * s.entryWords * s.count code.toList t ≤ code.size := by
        omega
      obtain ⟨o', hread, hvalues⟩ := readOperands_switch_of_le ht hfits
      cases h.symm.trans hread
      exact ⟨hfits, by omega, hvalues⟩

end Instruction

end Bytecode
