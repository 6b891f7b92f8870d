import Bytecode.Text
import Mathlib.Data.List.Basic

/-!
# Numbers in a text

A number is written with digits and a minus sign only, so that it ends in front of the first other
code unit.  Two texts that start with numbers are therefore the same exactly where the numbers and
what follows them are.  Zeros in front do not change the number that digits stand for.
-/

namespace Bytecode.Text

/-- A list is cut in one way only into items with a property and a rest that does not start with
one. -/
theorem append_inj_of_head? {α : Type} {p : α → Bool} {l l' r r' : List α} (hl : ∀ a ∈ l, p a)
    (hl' : ∀ a ∈ l', p a) (hr : r.head?.any p = false) (hr' : r'.head?.any p = false) :
    l ++ r = l' ++ r' ↔ l = l' ∧ r = r' := by
  have hnil : ∀ {r : List α}, r.head?.any p = false → r.takeWhile p = [] := by
    intro r hr
    cases r with
    | nil => rfl
    | cons a r => exact List.takeWhile_cons_of_neg (by simpa using hr)
  constructor
  · intro h
    have htake := congrArg (List.takeWhile p) h
    rw [List.takeWhile_append_of_pos hl, List.takeWhile_append_of_pos hl', hnil hr, hnil hr',
      List.append_nil, List.append_nil] at htake
    subst htake
    exact ⟨rfl, List.append_cancel_left h⟩
  · rintro ⟨rfl, rfl⟩
    rfl

/-! ## Digits -/

theorem toNat_unit_of_isDigit {c : Char} (h : c.isDigit) :
    (unit c).toNat = c.toNat ∧ 48 ≤ c.toNat ∧ c.toNat ≤ 57 := by
  have hrange : 48 ≤ c.toNat ∧ c.toNat ≤ 57 := by
    simpa [Char.isDigit, UInt32.le_iff_toNat_le] using h
  refine ⟨?_, hrange⟩
  rw [unit, Nat.toUInt16_eq, UInt16.toNat_ofNat', Nat.mod_eq_of_lt (by omega)]

theorem exists_isDigit_of_mem_digits {n : Nat} {u : UInt16} (h : u ∈ digits 10 n) :
    ∃ c : Char, c.isDigit ∧ unit c = u := by
  obtain ⟨c, hc, rfl⟩ := List.mem_map.mp h
  exact ⟨c, Nat.isDigit_of_mem_toDigits (by decide) (by decide) hc, rfl⟩

/-- The number that decimal digits stand for. -/
def value (t : Text) : Nat := t.foldl (fun n u ↦ 10 * n + (u.toNat - 48)) 0

theorem value_ofNat (n : Nat) : value (ofNat n) = n := by
  calc value (ofNat n)
      = (Nat.toDigits 10 n).foldl (fun n c ↦ 10 * n + (c.toNat - '0'.toNat)) 0 := by
        rw [value, ofNat, digits, List.foldl_map]
        refine List.foldl_ext _ _ 0 fun m c hc ↦ ?_
        have hd := Nat.isDigit_of_mem_toDigits (by decide) (by decide) hc
        rw [(toNat_unit_of_isDigit hd).1]
        rfl
    _ = n := by rw [← Nat.ofDigitChars_eq_foldl, Nat.ofDigitChars_ten_toDigits]

theorem value_padLeft (width : Nat) (t : Text) : value (padLeft width '0' t) = value t := by
  rw [padLeft]
  induction width - t.length with
  | zero => rfl
  | succ k ih => exact ih

/-- Filled up with zeros, different numbers stay different. -/
theorem padLeft_ofNat_inj {width m n : Nat} :
    padLeft width '0' (ofNat m) = padLeft width '0' (ofNat n) ↔ m = n := by
  constructor
  · intro h
    have hvalue := congrArg value h
    rwa [value_padLeft, value_padLeft, value_ofNat, value_ofNat] at hvalue
  · rintro rfl
    rfl

/-! ## Numerals -/

/-- The code units that numbers are written with. -/
def isNumeral (u : UInt16) : Bool := u = unit '-' || (unit '0' ≤ u && u ≤ unit '9')

theorem isNumeral_of_mem_digits {n : Nat} {u : UInt16} (h : u ∈ digits 10 n) : isNumeral u := by
  obtain ⟨c, hc, rfl⟩ := exists_isDigit_of_mem_digits h
  obtain ⟨hunit, hrange⟩ := toNat_unit_of_isDigit hc
  have hlow : unit '0' ≤ unit c := UInt16.le_iff_toNat_le.mpr (by rw [hunit]; exact hrange.1)
  have hhigh : unit c ≤ unit '9' := UInt16.le_iff_toNat_le.mpr (by rw [hunit]; exact hrange.2)
  simp [isNumeral, hlow, hhigh]

theorem minus_notMem_digits (n : Nat) : unit '-' ∉ digits 10 n := by
  intro h
  obtain ⟨c, hc, hminus⟩ := exists_isDigit_of_mem_digits h
  obtain ⟨hunit, hrange⟩ := toNat_unit_of_isDigit hc
  rw [hminus] at hunit
  have : (unit '-').toNat = 45 := rfl
  omega

theorem isNumeral_of_mem_ofInt {i : Int} {u : UInt16} (h : u ∈ ofInt i) : isNumeral u := by
  rw [ofInt, ofIntBase] at h
  split at h
  · rcases List.mem_cons.mp h with rfl | h
    · rfl
    · exact isNumeral_of_mem_digits h
  · exact isNumeral_of_mem_digits h

theorem ofInt_natCast (n : Nat) : ofInt n = ofNat n := by
  rw [ofInt, ofIntBase, if_neg (by omega)]
  rfl

theorem notMem_ofInt {u : UInt16} (hu : isNumeral u = false) (i : Int) : u ∉ ofInt i := by
  intro h
  rw [isNumeral_of_mem_ofInt h] at hu
  cases hu

theorem notMem_ofNat {u : UInt16} (hu : isNumeral u = false) (n : Nat) : u ∉ ofNat n := by
  rw [← ofInt_natCast]
  exact notMem_ofInt hu n

theorem ofInt_inj {i j : Int} : ofInt i = ofInt j ↔ i = j := by
  have hdigits : ∀ {m n : Nat}, digits 10 m = digits 10 n → m = n := by
    intro m n h
    have hvalue : value (ofNat m) = value (ofNat n) := congrArg value h
    rwa [value_ofNat, value_ofNat] at hvalue
  refine ⟨fun h ↦ ?_, fun h ↦ h ▸ rfl⟩
  simp only [ofInt, ofIntBase] at h
  split at h <;> split at h
  · have habs := hdigits (List.cons.inj h).2
    omega
  · exact absurd (h ▸ List.mem_cons_self) (minus_notMem_digits _)
  · exact absurd (h ▸ List.mem_cons_self) (minus_notMem_digits _)
  · have habs := hdigits h
    omega

theorem ofNat_inj {m n : Nat} : ofNat m = ofNat n ↔ m = n := by
  rw [← ofInt_natCast, ← ofInt_natCast, ofInt_inj, Int.natCast_inj]

/-- A number ends where the first code unit stands that no number is written with. -/
theorem ofInt_append_inj {i j : Int} {s t : Text} (hs : s.head?.any isNumeral = false)
    (ht : t.head?.any isNumeral = false) : ofInt i ++ s = ofInt j ++ t ↔ i = j ∧ s = t := by
  rw [append_inj_of_head? (fun _ ↦ isNumeral_of_mem_ofInt) (fun _ ↦ isNumeral_of_mem_ofInt) hs ht,
    ofInt_inj]

theorem ofNat_append_inj {m n : Nat} {s t : Text} (hs : s.head?.any isNumeral = false)
    (ht : t.head?.any isNumeral = false) : ofNat m ++ s = ofNat n ++ t ↔ m = n ∧ s = t := by
  rw [← ofInt_natCast, ← ofInt_natCast, ofInt_append_inj hs ht, Int.natCast_inj]

/-- The same of a number that is filled up with zeros. -/
theorem padLeft_append_inj {width m n : Nat} {s t : Text} (hs : s.head?.any isNumeral = false)
    (ht : t.head?.any isNumeral = false) :
    padLeft width '0' (ofNat m) ++ s = padLeft width '0' (ofNat n) ++ t ↔ m = n ∧ s = t := by
  have hmem : ∀ {n u}, u ∈ padLeft width '0' (ofNat n) → isNumeral u := by
    intro n u h
    rcases List.mem_append.mp h with h | h
    · rw [List.eq_of_mem_replicate h]
      rfl
    · exact isNumeral_of_mem_digits h
  rw [append_inj_of_head? (fun _ ↦ hmem) (fun _ ↦ hmem) hs ht, padLeft_ofNat_inj]

/-! ## Hexadecimal bytes -/

/-- The number that upper-case hexadecimal digits stand for. -/
def hexValue (t : Text) : Nat :=
  t.foldl (fun n u ↦ 16 * n + (u.toNat - if u ≤ unit '9' then 48 else 55)) 0

/-- Every byte has two digits of its own. -/
theorem upperHex_append_inj {m n : Nat} (hm : m < 256) (hn : n < 256) {s t : Text} :
    padLeft 2 '0' (upperHex m) ++ s = padLeft 2 '0' (upperHex n) ++ t ↔ m = n ∧ s = t := by
  have hall : ∀ n < 256, (padLeft 2 '0' (upperHex (n : Nat))).length = 2 ∧
      hexValue (padLeft 2 '0' (upperHex (n : Nat))) = n := by decide +kernel
  obtain ⟨hlm, hvm⟩ := hall m hm
  obtain ⟨hln, hvn⟩ := hall n hn
  constructor
  · intro h
    obtain ⟨hhex, hst⟩ := List.append_inj h (hlm.trans hln.symm)
    have hvalue := congrArg hexValue hhex
    rw [hvm, hvn] at hvalue
    exact ⟨hvalue, hst⟩
  · rintro ⟨rfl, rfl⟩
    rfl

end Bytecode.Text
