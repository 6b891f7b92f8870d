import Bytecode.Proofs.Text.ModifiedUtf8

/-!
# Malformed modified UTF-8 hides nothing that follows it

Reading goes from one place in the bytes to the next and adds one code unit on the way.  A complete
sequence is read as a whole.  A byte that starts none becomes one replacement character, and the
next place is the one behind it.  A step looks at no more than the continuation bytes behind a lead
byte, so a text falls into two parts in front of every byte that is no continuation, however the
bytes in front of it are cut short or malformed (`decode_resynchronizes`).
-/

namespace Bytecode.ModifiedUtf8

/-! ## Sequences -/

/-- The bytes that continue a sequence. -/
def Continues (b : UInt8) : Prop := 0x80 ≤ b ∧ b ≤ 0xBF

/-- A complete sequence and the code unit that it stands for. -/
inductive Complete : List UInt8 → UInt16 → Prop where
  | one {a : UInt8} : 0x01 ≤ a → a ≤ 0x7F → Complete [a] a.toUInt16
  | two {a b : UInt8} : 0xC0 ≤ a → a ≤ 0xDF → Continues b → Complete [a, b] (unitOfTwo a b)
  | three {a b c : UInt8} : 0xE0 ≤ a → a ≤ 0xEF → Continues b → Continues c →
      Complete [a, b, c] (unitOfThree a b c)

/-- The first of some bytes is there, but starts no complete sequence. -/
inductive Stray : List UInt8 → Prop where
  | zero {rest : List UInt8} : Stray (0 :: rest)
  | continuation {a : UInt8} {rest : List UInt8} : Continues a → Stray (a :: rest)
  | unused {a : UInt8} {rest : List UInt8} : 0xF0 ≤ a → Stray (a :: rest)
  | brokenTwo {a : UInt8} {rest : List UInt8} : 0xC0 ≤ a → a ≤ 0xDF →
      (∀ b ∈ rest.head?, ¬ Continues b) → Stray (a :: rest)
  | brokenThree {a : UInt8} {rest : List UInt8} : 0xE0 ≤ a → a ≤ 0xEF →
      (∀ b c tail, rest = b :: c :: tail → ¬ (Continues b ∧ Continues c)) → Stray (a :: rest)

section Ranges

variable {b : UInt8}

theorem isContinuation_iff_continues : isContinuation b ↔ Continues b := by
  rw [isContinuation_iff, Continues, UInt8.le_iff_toNat_le, UInt8.le_iff_toNat_le]
  show _ ↔ 128 ≤ b.toNat ∧ b.toNat ≤ 191
  omega

theorem isSingle_iff_range : isSingle b ↔ 0x01 ≤ b ∧ b ≤ 0x7F := by
  rw [isSingle_iff, UInt8.le_iff_toNat_le, UInt8.le_iff_toNat_le]
  show _ ↔ 1 ≤ b.toNat ∧ b.toNat ≤ 127
  omega

theorem leadsTwo_iff_range : leadsTwo b ↔ 0xC0 ≤ b ∧ b ≤ 0xDF := by
  rw [leadsTwo_iff, UInt8.le_iff_toNat_le, UInt8.le_iff_toNat_le]
  show _ ↔ 192 ≤ b.toNat ∧ b.toNat ≤ 223
  omega

theorem leadsThree_iff_range : leadsThree b ↔ 0xE0 ≤ b ∧ b ≤ 0xEF := by
  rw [leadsThree_iff, UInt8.le_iff_toNat_le, UInt8.le_iff_toNat_le]
  show _ ↔ 224 ≤ b.toNat ∧ b.toNat ≤ 239
  omega

end Ranges

theorem Stray.ne_append {bytes s tail : List UInt8} {u : UInt16} (h : Stray bytes)
    (hs : Complete s u) : bytes ≠ s ++ tail := by
  rintro rfl
  cases hs with
  | one h₁ h₂ => cases h <;> grind [Continues]
  | two h₁ h₂ hb =>
    cases h with
    | brokenTwo _ _ hbroken => exact hbroken _ rfl hb
    | _ => grind [Continues]
  | three h₁ h₂ hb hc =>
    cases h with
    | brokenThree _ _ hbroken => exact hbroken _ _ _ rfl ⟨hb, hc⟩
    | _ => grind [Continues]

/-! ## One step -/

theorem first_le (a : UInt8) (rest : List UInt8) : (first a rest).2 ≤ rest.length := by
  fun_cases first a rest <;> simp

theorem Complete.first_eq {a : UInt8} {s : List UInt8} {u : UInt16} (h : Complete (a :: s) u)
    (tail : List UInt8) : first a (s ++ tail) = (u, s.length) := by
  cases h with
  | one h₁ h₂ =>
    rw [first.eq_def, if_pos (isSingle_iff_range.mpr ⟨h₁, h₂⟩)]
    rfl
  | two h₁ h₂ hb =>
    rw [first.eq_def, if_neg (by rw [isSingle_iff_range]; grind),
      if_pos (leadsTwo_iff_range.mpr ⟨h₁, h₂⟩)]
    exact if_pos (isContinuation_iff_continues.mpr hb)
  | three h₁ h₂ hb hc =>
    rw [first.eq_def, if_neg (by rw [isSingle_iff_range]; grind),
      if_neg (by rw [leadsTwo_iff_range]; grind), if_pos (leadsThree_iff_range.mpr ⟨h₁, h₂⟩)]
    refine if_pos ?_
    rw [Bool.and_eq_true, isContinuation_iff_continues, isContinuation_iff_continues]
    exact ⟨hb, hc⟩

/-- A step that reads no complete sequence replaces one stray byte. -/
theorem first_cases (a : UInt8) (rest : List UInt8) :
    (∃ s u tail, Complete (a :: s) u ∧ rest = s ++ tail) ∨
      Stray (a :: rest) ∧ first a rest = (replacement, 0) := by
  fun_cases first a rest with
  | case1 rest hone =>
    obtain ⟨h₁, h₂⟩ := isSingle_iff_range.mp hone
    exact .inl ⟨_, _, rest, .one h₁ h₂, rfl⟩
  | case2 hone htwo b tail hb =>
    obtain ⟨h₁, h₂⟩ := leadsTwo_iff_range.mp htwo
    exact .inl ⟨_, _, tail, .two h₁ h₂ (isContinuation_iff_continues.mp hb), rfl⟩
  | case3 hone htwo b tail hb =>
    obtain ⟨h₁, h₂⟩ := leadsTwo_iff_range.mp htwo
    rw [isContinuation_iff_continues] at hb
    refine .inr ⟨.brokenTwo h₁ h₂ ?_, rfl⟩
    rintro _ ⟨⟩
    exact hb
  | case4 hone htwo =>
    obtain ⟨h₁, h₂⟩ := leadsTwo_iff_range.mp htwo
    exact .inr ⟨.brokenTwo h₁ h₂ (by simp), rfl⟩
  | case5 hone htwo hthree b c tail hbc =>
    obtain ⟨h₁, h₂⟩ := leadsThree_iff_range.mp hthree
    rw [Bool.and_eq_true, isContinuation_iff_continues, isContinuation_iff_continues] at hbc
    exact .inl ⟨_, _, tail, .three h₁ h₂ hbc.1 hbc.2, rfl⟩
  | case6 hone htwo hthree b c tail hbc =>
    obtain ⟨h₁, h₂⟩ := leadsThree_iff_range.mp hthree
    rw [Bool.and_eq_true, isContinuation_iff_continues, isContinuation_iff_continues] at hbc
    refine .inr ⟨.brokenThree h₁ h₂ ?_, rfl⟩
    rintro _ _ _ ⟨⟩
    exact hbc
  | case7 rest hone htwo hthree hshort =>
    obtain ⟨h₁, h₂⟩ := leadsThree_iff_range.mp hthree
    exact .inr ⟨.brokenThree h₁ h₂ fun b c tail h ↦ (hshort b c tail h).elim, rfl⟩
  | case8 rest hone htwo hthree =>
    -- What is left is zero, a continuation and everything above the lead bytes of three.
    rw [isSingle_iff_range] at hone
    rw [leadsTwo_iff_range] at htwo
    rw [leadsThree_iff_range] at hthree
    refine .inr ⟨?_, rfl⟩
    by_cases hzero : a = 0
    · exact hzero ▸ .zero
    by_cases hcontinues : Continues a
    · exact .continuation hcontinues
    · exact .unused (by grind [Continues])

theorem Stray.first_eq {a : UInt8} {rest : List UInt8} (h : Stray (a :: rest)) :
    first a rest = (replacement, 0) := by
  obtain ⟨s, u, tail, hs, heq⟩ | ⟨-, hfirst⟩ := first_cases a rest
  · exact absurd (congrArg (a :: ·) heq) (h.ne_append hs)
  · exact hfirst

/-- A byte is stray exactly if no complete sequence stands in its place. -/
theorem stray_iff {bytes : List UInt8} :
    Stray bytes ↔ bytes ≠ [] ∧ ∀ s u tail, Complete s u → bytes ≠ s ++ tail := by
  constructor
  · intro h
    refine ⟨?_, fun s u tail hs ↦ h.ne_append hs⟩
    rintro rfl
    cases h
  · rintro ⟨hne, hall⟩
    obtain ⟨a, rest, rfl⟩ := List.exists_cons_of_ne_nil hne
    obtain ⟨s, u, tail, hs, heq⟩ | ⟨hstray, -⟩ := first_cases a rest
    · exact absurd (congrArg (a :: ·) heq) (hall _ u tail hs)
    · exact hstray

/-- A byte stays stray if what is added behind it starts with no continuation. -/
theorem Stray.append {bytes b : List UInt8} (hstray : Stray bytes)
    (h : ∀ c ∈ b.head?, ¬ Continues c) : Stray (bytes ++ b) := by
  cases hstray with
  | zero => exact .zero
  | continuation ha => exact .continuation ha
  | unused ha => exact .unused ha
  | @brokenTwo a rest h₁ h₂ hbroken =>
    refine .brokenTwo h₁ h₂ ?_
    cases rest with
    | nil => exact h
    | cons c rest => exact hbroken
  | @brokenThree a rest h₁ h₂ hbroken =>
    refine .brokenThree h₁ h₂ ?_
    rintro c d tail heq ⟨hc, hd⟩
    -- The first new byte takes the place of the second or of the third byte, or comes behind both.
    match rest with
    | [] =>
      obtain rfl : b = c :: d :: tail := heq
      exact h c rfl hc
    | [x] =>
      obtain ⟨rfl, rfl⟩ := List.cons.inj heq
      exact h d rfl hd
    | x :: y :: rest =>
      cases heq
      exact hbroken _ _ _ rfl ⟨hc, hd⟩

/-- A step does not look beyond a byte that is no continuation. -/
theorem first_append {a : UInt8} {rest b : List UInt8} (h : ∀ c ∈ b.head?, ¬ Continues c) :
    first a (rest ++ b) = first a rest := by
  obtain ⟨s, u, tail, hs, heq⟩ | ⟨hstray, hfirst⟩ := first_cases a rest
  · rw [heq, List.append_assoc, hs.first_eq, hs.first_eq]
  · rw [hfirst]
    exact (hstray.append h).first_eq

/-! ## Places -/

/-- Reading `bytes` gets to the place `i`, with the code units `us` in front of it. -/
inductive Reaches (bytes : List UInt8) : Nat → List UInt16 → Prop where
  | start : Reaches bytes 0 []
  | step {i : Nat} {us : List UInt16} {a : UInt8} {rest : List UInt8} : Reaches bytes i us →
      bytes.drop i = a :: rest →
      Reaches bytes (i + 1 + (first a rest).2) (us ++ [(first a rest).1])

theorem decode_eq_units (bytes : List UInt8) : decode bytes = units bytes := by
  rw [decode, joinFrom_zero]

namespace Reaches

variable {bytes : List UInt8} {i : Nat} {us : List UInt16}

/-- What has been read stays, and the rest is read like bytes of its own. -/
theorem decode_eq (h : Reaches bytes i us) : decode bytes = us ++ decode (bytes.drop i) := by
  simp only [decode_eq_units]
  induction h with
  | start => rfl
  | @step i us a rest _ hrest ih =>
    rw [ih, hrest, units_cons, List.append_assoc, List.singleton_append, Nat.add_assoc,
      ← List.drop_drop, hrest, Nat.add_comm 1, List.drop_succ_cons]

theorem complete (h : Reaches bytes i us) {s tail : List UInt8} {u : UInt16} (hs : Complete s u)
    (hi : bytes.drop i = s ++ tail) : Reaches bytes (i + s.length) (us ++ [u]) := by
  cases s with
  | nil => cases hs
  | cons a s =>
    have hstep := h.step (hi.trans (List.cons_append ..))
    rwa [hs.first_eq, Nat.add_assoc, Nat.add_comm 1] at hstep

theorem stray (h : Reaches bytes i us) (hi : Stray (bytes.drop i)) :
    Reaches bytes (i + 1) (us ++ [replacement]) := by
  obtain ⟨a, rest, hrest⟩ := List.exists_cons_of_ne_nil (stray_iff.mp hi).1
  rw [hrest] at hi
  have hstep := h.step hrest
  rwa [hi.first_eq] at hstep

end Reaches

/-! ## Two parts -/

theorem units_append {a b : List UInt8} (h : ∀ c ∈ b.head?, ¬ Continues c) :
    units (a ++ b) = units a ++ units b := by
  fun_induction units a with
  | case1 => rfl
  | case2 x rest u more hfirst ih =>
    have hmore : more ≤ rest.length := by
      have hle := first_le x rest
      rwa [hfirst] at hle
    rw [List.cons_append, units_cons, first_append h, hfirst,
      List.drop_append_of_le_length hmore, ih, List.cons_append]

/-- Bytes are read in two parts, one after the other, wherever the second part starts with no
continuation.  At every place that reading gets to, it goes behind a complete sequence, or else
behind one byte, which it replaces. -/
theorem decode_resynchronizes :
    (∀ a b : List UInt8, (∀ c ∈ b.head?, ¬ Continues c) →
      decode (a ++ b) = decode a ++ decode b) ∧
    ∀ (bytes : List UInt8) (i : Nat) (us : List UInt16), Reaches bytes i us →
      (∀ s u tail, Complete s u → bytes.drop i = s ++ tail →
        Reaches bytes (i + s.length) (us ++ [u])) ∧
      (Stray (bytes.drop i) ↔
        bytes.drop i ≠ [] ∧ ∀ s u tail, Complete s u → bytes.drop i ≠ s ++ tail) ∧
      (Stray (bytes.drop i) →
        Reaches bytes (i + 1) (us ++ [replacement]) ∧
        decode bytes = us ++ replacement :: decode (bytes.drop (i + 1))) := by
  refine ⟨fun a b h ↦ ?_, fun bytes i us h ↦ ⟨fun s u tail ↦ h.complete, stray_iff, fun hi ↦ ?_⟩⟩
  · rw [decode_eq_units, decode_eq_units, decode_eq_units, units_append h]
  · have hnext := h.stray hi
    refine ⟨hnext, ?_⟩
    rw [hnext.decode_eq, List.append_assoc, List.singleton_append]

/-- A sequence of three that lacks its last byte is replaced byte by byte, and the sequence of two
behind it is read. -/
theorem decode_resynchronizes_cutShort :
    decode ([0x41, 0xE3, 0x81] ++ [0xC3, 0xA9]) = decode [0x41, 0xE3, 0x81] ++ decode [0xC3, 0xA9] ∧
      Reaches [0x41, 0xE3, 0x81, 0xC3, 0xA9] 2 [0x41, replacement] ∧
      decode [0x41, 0xE3, 0x81, 0xC3, 0xA9] =
        [0x41] ++ replacement :: decode [0x81, 0xC3, 0xA9] := by
  obtain ⟨happend, hplaces⟩ := decode_resynchronizes
  have hstart := hplaces [0x41, 0xE3, 0x81, 0xC3, 0xA9] 0 [] .start
  have hone := hstart.1 [0x41] 0x41 _ (.one (by decide) (by decide)) rfl
  have hlead : Stray [0xE3, 0x81, 0xC3, 0xA9] := by
    refine .brokenThree (by decide) (by decide) ?_
    rintro _ _ _ ⟨⟩ ⟨-, hc⟩
    exact absurd hc.2 (by decide)
  refine ⟨happend _ _ ?_, (hplaces _ 1 [0x41] hone).2.2 hlead⟩
  rintro _ ⟨⟩ hc
  exact absurd hc.2 (by decide)

end Bytecode.ModifiedUtf8
