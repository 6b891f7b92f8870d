import Bytecode.Text.ModifiedUtf8
import Mathlib.Data.Nat.Bitwise

/-!
# Modified UTF-8 is read back as it was written

Every code unit is written on its own, in one to three bytes that show by their highest bits how many
they are.  Reading what was written gives the same code units (`decode_encode`), whether they are
zero, a surrogate pair or half of one, and whatever the number of chunks that the text is put
together from.

What reading does with a byte is stated with division and remainder first: the highest bits of a
byte are its quotient by a power of two, and the bits it gives to a code unit are the remainder.
-/

namespace Bytecode.ModifiedUtf8

/-! ## The bits of a byte -/

section Bits

variable {b mask : UInt8} {k : Nat}

/-- Of a byte a mask of all bits from the `k`-th on keeps the quotient by `2 ^ k`. -/
theorem toNat_and_high (hmask : mask.toNat = (2 ^ (8 - k) - 1) * 2 ^ k) :
    (b &&& mask).toNat = b.toNat / 2 ^ k * 2 ^ k := by
  rw [UInt8.toNat_and, hmask]
  apply Nat.eq_of_testBit_eq
  intro i
  rw [Nat.testBit_and, Nat.testBit_mul_two_pow, Nat.testBit_mul_two_pow, Nat.testBit_div_two_pow,
    Nat.testBit_two_pow_sub_one]
  by_cases hi : k ≤ i
  · rw [Nat.sub_add_cancel hi]
    by_cases hlast : i < 8
    · have hlt : i - k < 8 - k := Nat.sub_lt_sub_right hi hlast
      simp [hlt, hi]
    · have hbit : b.toNat.testBit i = false :=
        Nat.testBit_lt_two_pow (b.toNat_lt.trans_le (Nat.pow_le_pow_right (by decide) (by omega)))
      simp [hbit]
  · simp [hi]

/-- A test of the highest bits of a byte is a test of its quotient. -/
theorem and_beq_iff {tag : UInt8} {t : Nat} (hmask : mask.toNat = (2 ^ (8 - k) - 1) * 2 ^ k)
    (htag : tag.toNat = t * 2 ^ k) :
    (b &&& mask == tag) = true ↔ b.toNat / 2 ^ k = t := by
  rw [beq_iff_eq, ← UInt8.toNat_inj, toNat_and_high hmask, htag]
  exact Nat.mul_left_inj (Nat.two_pow_pos k).ne'

/-- Of a byte a mask of the lowest `k` bits keeps the remainder. -/
theorem toNat_and_low (hmask : mask.toNat = 2 ^ k - 1) :
    (b &&& mask).toUInt16.toNat = b.toNat % 2 ^ k := by
  rw [UInt8.toNat_toUInt16, UInt8.toNat_and, hmask, Nat.and_two_pow_sub_one_eq_mod]

end Bits

theorem isContinuation_iff {b : UInt8} : isContinuation b ↔ b.toNat / 64 = 2 :=
  @and_beq_iff b 0xC0 6 0x80 2 rfl rfl

theorem leadsTwo_iff {b : UInt8} : leadsTwo b ↔ b.toNat / 32 = 6 :=
  @and_beq_iff b 0xE0 5 0xC0 6 rfl rfl

theorem leadsThree_iff {b : UInt8} : leadsThree b ↔ b.toNat / 16 = 14 :=
  @and_beq_iff b 0xF0 4 0xE0 14 rfl rfl

theorem isSingle_iff {b : UInt8} : isSingle b ↔ 0 < b.toNat ∧ b.toNat < 128 := by
  rw [isSingle, Bool.and_eq_true, decide_eq_true_iff, decide_eq_true_iff, UInt8.lt_iff_toNat_lt,
    UInt8.lt_iff_toNat_lt]
  rfl

/-! ## The code unit of a sequence -/

/-- Bits that stand next to each other are added. -/
theorem toNat_or {x y : UInt16} {k m : Nat} (hx : x.toNat = 2 ^ k * m) (hy : y.toNat < 2 ^ k) :
    (x ||| y).toNat = x.toNat + y.toNat := by
  rw [UInt16.toNat_or, hx, Nat.two_pow_add_eq_or_of_lt hy]

/-- The lowest `k` bits of a byte, moved up within sixteen bits. -/
theorem toNat_shiftLeft {b mask : UInt8} {s : UInt16} {k : Nat} (hmask : mask.toNat = 2 ^ k - 1)
    (hk : k + s.toNat ≤ 16) (hs : s.toNat < 16) :
    ((b &&& mask).toUInt16 <<< s).toNat = 2 ^ s.toNat * (b.toNat % 2 ^ k) := by
  have hlt : b.toNat % 2 ^ k * 2 ^ s.toNat < 2 ^ 16 := calc
    b.toNat % 2 ^ k * 2 ^ s.toNat < 2 ^ k * 2 ^ s.toNat :=
      Nat.mul_lt_mul_of_pos_right (Nat.mod_lt _ (Nat.two_pow_pos k)) (Nat.two_pow_pos _)
    _ = 2 ^ (k + s.toNat) := (Nat.pow_add _ _ _).symm
    _ ≤ 2 ^ 16 := Nat.pow_le_pow_right (by decide) hk
  rw [UInt16.toNat_shiftLeft, Nat.mod_eq_of_lt hs, Nat.shiftLeft_eq, toNat_and_low hmask,
    Nat.mod_eq_of_lt hlt, Nat.mul_comm]

theorem toNat_unitOfTwo (a b : UInt8) :
    (unitOfTwo a b).toNat = a.toNat % 32 * 64 + b.toNat % 64 := by
  have ha : ((a &&& 0x1F).toUInt16 <<< 6).toNat = 2 ^ 6 * (a.toNat % 32) :=
    @toNat_shiftLeft a 0x1F 6 5 rfl (by decide) (by decide)
  have hb : (b &&& 0x3F).toUInt16.toNat = b.toNat % 64 := @toNat_and_low b 0x3F 6 rfl
  rw [unitOfTwo, toNat_or ha (by omega), ha, hb]
  omega

theorem toNat_unitOfThree (a b c : UInt8) :
    (unitOfThree a b c).toNat = a.toNat % 16 * 4096 + b.toNat % 64 * 64 + c.toNat % 64 := by
  have ha : ((a &&& 0x0F).toUInt16 <<< 12).toNat = 2 ^ 12 * (a.toNat % 16) :=
    @toNat_shiftLeft a 0x0F 12 4 rfl (by decide) (by decide)
  have hb : ((b &&& 0x3F).toUInt16 <<< 6).toNat = 2 ^ 6 * (b.toNat % 64) :=
    @toNat_shiftLeft b 0x3F 6 6 rfl (by decide) (by decide)
  have hc : (c &&& 0x3F).toUInt16.toNat = c.toNat % 64 := @toNat_and_low c 0x3F 6 rfl
  have hab : ((a &&& 0x0F).toUInt16 <<< 12 ||| (b &&& 0x3F).toUInt16 <<< 6).toNat =
      2 ^ 6 * (a.toNat % 16 * 64 + b.toNat % 64) := by
    rw [toNat_or ha (by omega), ha, hb]
    omega
  rw [unitOfThree, toNat_or hab (by omega), hab, hc]
  omega

/-! ## Reading one sequence -/

section Step

variable {a b c : UInt8} (rest : List UInt8)

theorem units_single (ha : 0 < a.toNat ∧ a.toNat < 128) :
    units (a :: rest) = a.toUInt16 :: units rest := by
  have hfirst : first a rest = (a.toUInt16, 0) := by
    rw [first.eq_def, if_pos (isSingle_iff.mpr ha)]
  rw [units_cons, hfirst, List.drop_zero]

theorem units_two (ha : a.toNat / 32 = 6) (hb : b.toNat / 64 = 2) :
    units (a :: b :: rest) = unitOfTwo a b :: units rest := by
  have hsingle : ¬ isSingle a := by
    rw [isSingle_iff]
    omega
  have hfirst : first a (b :: rest) = (unitOfTwo a b, 1) := by
    rw [first, if_neg hsingle, if_pos (leadsTwo_iff.mpr ha)]
    exact if_pos (isContinuation_iff.mpr hb)
  rw [units_cons, hfirst, List.drop_succ_cons, List.drop_zero]

theorem units_three (ha : a.toNat / 16 = 14) (hb : b.toNat / 64 = 2) (hc : c.toNat / 64 = 2) :
    units (a :: b :: c :: rest) = unitOfThree a b c :: units rest := by
  have hsingle : ¬ isSingle a := by
    rw [isSingle_iff]
    omega
  have htwo : ¬ leadsTwo a := by
    rw [leadsTwo_iff]
    omega
  have hcontinued : (isContinuation b && isContinuation c) = true := by
    rw [Bool.and_eq_true]
    exact ⟨isContinuation_iff.mpr hb, isContinuation_iff.mpr hc⟩
  have hfirst : first a (b :: c :: rest) = (unitOfThree a b c, 2) := by
    rw [first, if_neg hsingle, if_neg htwo, if_pos (leadsThree_iff.mpr ha)]
    exact if_pos hcontinued
  rw [units_cons, hfirst, List.drop_succ_cons, List.drop_succ_cons, List.drop_zero]

end Step

/-! ## Writing -/

/-- The bytes that a code unit is written as: its last seven bits in one byte, its last eleven in two
or all sixteen in three. -/
def encodeUnit (u : UInt16) : List UInt8 :=
  let n := u.toNat
  if 0 < n ∧ n < 0x80 then [.ofNat n]
  else if n < 0x800 then [.ofNat (0xC0 + n / 64), .ofNat (0x80 + n % 64)]
  else [.ofNat (0xE0 + n / 4096), .ofNat (0x80 + n / 64 % 64), .ofNat (0x80 + n % 64)]

/-- The bytes that a text is written as. -/
def encode (t : Text) : List UInt8 := t.flatMap encodeUnit

/-- One sequence is read as the code unit it was written for, and reading goes on behind it. -/
theorem units_encodeUnit_append (u : UInt16) (rest : List UInt8) :
    units (encodeUnit u ++ rest) = u :: units rest := by
  have hu : u.toNat < 65536 := u.toNat_lt
  have hbyte : ∀ n < 256, (UInt8.ofNat n).toNat = n := fun n hn ↦ UInt8.toNat_ofNat_of_lt' hn
  simp only [encodeUnit]
  by_cases hone : 0 < u.toNat ∧ u.toNat < 0x80
  · have ha := hbyte u.toNat (by omega)
    rw [if_pos hone, List.singleton_append, units_single rest (ha.symm ▸ hone)]
    congr 1
    rw [← UInt16.toNat_inj, UInt8.toNat_toUInt16, ha]
  -- Zero is left for the second case: its two bytes are never a single one.
  rw [if_neg hone]
  have hlast := hbyte (0x80 + u.toNat % 64) (by omega)
  by_cases htwo : u.toNat < 0x800
  · have hlead := hbyte (0xC0 + u.toNat / 64) (by omega)
    rw [if_pos htwo]
    show units (_ :: _ :: rest) = _
    rw [units_two rest (by omega) (by omega)]
    congr 1
    rw [← UInt16.toNat_inj, toNat_unitOfTwo, hlead, hlast]
    omega
  · have hlead := hbyte (0xE0 + u.toNat / 4096) (by omega)
    have hmiddle := hbyte (0x80 + u.toNat / 64 % 64) (by omega)
    rw [if_neg htwo]
    show units (_ :: _ :: _ :: rest) = _
    rw [units_three rest (by omega) (by omega) (by omega)]
    congr 1
    rw [← UInt16.toNat_inj, toNat_unitOfThree, hlead, hmiddle, hlast]
    omega

theorem units_encode_append (t : Text) (rest : List UInt8) :
    units (encode t ++ rest) = t ++ units rest := by
  induction t with
  | nil => rfl
  | cons u t ih =>
    rw [encode, List.flatMap_cons, ← encode, List.append_assoc, units_encodeUnit_append, ih,
      List.cons_append]

theorem units_encode (t : Text) : units (encode t) = t := by
  have h := units_encode_append t []
  rwa [List.append_nil, units_nil, List.append_nil] at h

/-! ## Putting the text together -/

/-- At index `i` the code units from there on are still to be added. -/
theorem joinFrom_eq (us : List UInt16) (i : Nat) (text : Text) :
    joinFrom us i text = text ++ us.drop i := by
  fun_induction joinFrom us i text with
  | case1 i text hi ih =>
    -- The chunk is the part that the next index leaves out, also where it is shorter than the others.
    rw [ih, List.append_assoc, List.extract_eq_take_drop, Nat.add_sub_cancel_left, ← List.drop_drop,
      List.take_append_drop]
  | case2 i text hi => rw [List.drop_eq_nil_of_le (Nat.le_of_not_lt hi), List.append_nil]

theorem joinFrom_zero (us : List UInt16) : joinFrom us 0 [] = us := by
  rw [joinFrom_eq, List.drop_zero, List.nil_append]

/-- Text that is written is read back, and putting code units together in chunks changes nothing. -/
theorem decode_encode (t : Text) : decode (encode t) = t ∧ joinFrom t 0 [] = t := by
  constructor
  · rw [decode, units_encode, joinFrom_zero]
  · exact joinFrom_zero t

end Bytecode.ModifiedUtf8
