import Bytecode.Word
import Mathlib.Tactic.Ring

/-!
# Words are determined by their bytes

Writing a number as bytes and reading bytes as a number are inverse to each other, on the bytes of a
fixed width and the numbers that fit into it; likewise for the two's complement of a word.
-/

namespace Bytecode.Word

/-! ## Unsigned words -/

theorem foldl_value (bytes : List UInt8) (n : Nat) :
    bytes.foldl (fun n b ↦ 256 * n + b.toNat) n = n * 256 ^ bytes.length + value bytes := by
  induction bytes generalizing n with
  | nil => simp [value]
  | cons b bytes ih =>
    simp only [List.foldl_cons, List.length_cons, value]
    rw [ih (256 * n + b.toNat), ih (256 * 0 + b.toNat)]
    ring

theorem value_cons (b : UInt8) (bytes : List UInt8) :
    value (b :: bytes) = b.toNat * 256 ^ bytes.length + value bytes := by
  have h := foldl_value bytes b.toNat
  simpa [value] using h

theorem value_lt (bytes : List UInt8) : value bytes < 256 ^ bytes.length := by
  induction bytes with
  | nil => simp [value]
  | cons b bytes ih =>
    have hb : b.toNat + 1 ≤ 256 := b.toNat_lt
    have hm : (b.toNat + 1) * 256 ^ bytes.length ≤ 256 * 256 ^ bytes.length :=
      Nat.mul_le_mul_right _ hb
    rw [value_cons, List.length_cons, Nat.pow_succ', Nat.add_mul] at *
    omega

theorem value_bytes (width n : Nat) : value (bytes width n) = n % 256 ^ width := by
  induction width with
  | zero => simp [bytes, value, Nat.mod_one]
  | succ width ih =>
    rw [bytes, value_cons, length_bytes, ih]
    rw [Nat.pow_eq, Nat.toUInt8_eq, UInt8.toNat_ofNat', @Nat.mod_pow_succ n 256]
    ring

/-- A number that fits is read back. -/
theorem value_bytes_of_lt {width n : Nat} (h : n < 256 ^ width) : value (bytes width n) = n := by
  rw [value_bytes, Nat.mod_eq_of_lt h]

/-- The bytes of a word only depend on its last bytes. -/
theorem bytes_add_mul (width m n : Nat) : bytes width (m * 256 ^ width + n) = bytes width n := by
  suffices h : ∀ k ≤ width, bytes k (m * 256 ^ width + n) = bytes k n from h width (Nat.le_refl _)
  intro k hk
  induction k with
  | zero => rfl
  | succ k ih =>
    have hpow : m * 256 ^ width = 256 ^ k * (256 * (m * 256 ^ (width - (k + 1)))) := by
      rw [show width = k + 1 + (width - (k + 1)) by omega]
      simp only [Nat.add_sub_cancel_left, Nat.pow_add]
      ring
    rw [bytes, bytes, ih (by omega), Nat.pow_eq, hpow, Nat.mul_add_div (Nat.pow_pos (by decide))]
    congr 1
    apply UInt8.toNat_inj.mp
    simp

/-- Bytes are written back. -/
theorem bytes_value (b : List UInt8) : bytes b.length (value b) = b := by
  induction b with
  | nil => rfl
  | cons x b ih =>
    have hdiv : (x.toNat * 256 ^ b.length + value b) / 256 ^ b.length = x.toNat := by
      rw [Nat.mul_comm, Nat.mul_add_div (Nat.pow_pos (by decide)), Nat.div_eq_of_lt (value_lt b)]
      rfl
    rw [List.length_cons, bytes, value_cons, bytes_add_mul, ih, Nat.pow_eq, hdiv]
    simp

/-! ## Two's complement -/

theorem ofSigned_of_nonneg {width : Nat} {i : Int} (h₀ : 0 ≤ i) (h : i < (256 ^ width : Nat)) :
    ofSigned width i = i.toNat := by
  rw [ofSigned, Nat.pow_eq, Int.emod_eq_of_lt h₀ h]

theorem ofSigned_lt (width : Nat) (i : Int) : ofSigned width i < 256 ^ width := by
  have hpos : (0 : Int) < (256 ^ width : Nat) := by exact_mod_cast Nat.pow_pos (by decide)
  have hlt := Int.emod_lt_of_pos i hpos
  have hnn := Int.emod_nonneg i hpos.ne'
  rw [ofSigned, Nat.pow_eq]
  omega

/-- A number in the range of two's complement is read back. -/
theorem signed_ofSigned {width : Nat} {i : Int} (hl : -((256 ^ width : Nat) : Int) ≤ 2 * i)
    (hu : 2 * i < (256 ^ width : Nat)) : signed width (ofSigned width i) = i := by
  rcases Int.lt_or_le i 0 with hi | hi
  · have hmod : i % (256 ^ width : Nat) = i + (256 ^ width : Nat) := by
      rw [← Int.add_emod_right, Int.emod_eq_of_lt (by omega) (by omega)]
    rw [signed, ofSigned, Nat.pow_eq, hmod]
    omega
  · rw [ofSigned_of_nonneg hi (by omega), signed, Nat.pow_eq]
    omega

/-- A word is written back. -/
theorem ofSigned_signed {width n : Nat} (h : n < 256 ^ width) :
    ofSigned width (signed width n) = n := by
  rw [signed, Nat.pow_eq]
  split
  · rw [ofSigned_of_nonneg (by omega) (by omega)]
    rfl
  · rw [ofSigned, Nat.pow_eq, ← Int.add_emod_right, Int.emod_eq_of_lt (by omega) (by omega)]
    omega

/-- What a word can stand for in two's complement. -/
theorem signed_range {width n : Nat} (h : n < 256 ^ width) :
    -((256 ^ width : Nat) : Int) ≤ 2 * signed width n ∧
      2 * signed width n < (256 ^ width : Nat) := by
  rw [signed, Nat.pow_eq]
  split <;> omega

end Bytecode.Word
