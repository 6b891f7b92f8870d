import Bytecode.Proofs.Pool.Layout
import Bytecode.Proofs.Text.ModifiedUtf8
import Mathlib.Data.List.Chain

/-!
# The grammar of the constant pool and the numbering of its slots

The constants of a pool are numbered from one on, and a long or double takes up two numbers.  A
window is read as a pool exactly where its constants start below the count and leave no number below
it open.  Then every constant is found under the number at which it starts, and the only numbers
below the count without a constant are zero and those that follow a long or double.  A reader of
constants breaks no rule behind the tag, so reading a pool breaks a rule exactly where it meets a
byte that is no tag in the place of one; in all other cases bytes are missing.
-/

namespace Bytecode

open Reader

/-! ## Readers that break no rule -/

namespace Reader

variable {ε α β : Type}

/-- There is no rule that the bytes could break: `p` succeeds or is cut short. -/
def Lenient (p : Reader ε α) : Prop := ∀ w e, p w ≠ .error (.invalid e)

namespace Lenient

protected theorem pure (a : α) : Lenient (pure a : Reader ε α) := by
  intro w e h
  cases h

protected theorem take (n : Nat) : Lenient (take n : Reader ε _) := by
  intro w e h
  rw [Reader.take] at h
  split at h <;> cases h

protected theorem bind {p : Reader ε α} {f : α → Reader ε β} (hp : Lenient p)
    (hf : ∀ a, Lenient (f a)) : Lenient (p >>= f) := by
  intro w e h
  obtain h | ⟨a, n, -, -, h⟩ := bind_eq_invalid.mp h
  · exact hp w e h
  · exact hf a _ e h

protected theorem unsigned (width : Nat) : Lenient (unsigned width : Reader ε Nat) :=
  (Lenient.take width).bind fun _ ↦ .pure _

protected theorem signed (width : Nat) : Lenient (signed width : Reader ε Int) :=
  (Lenient.unsigned width).bind fun _ ↦ .pure _

end Lenient

theorem u1_eq_ok_iff {w : Window} {v n : Nat} :
    (u1 : Reader ε Nat) w = .ok (v, n) ↔
      ∃ b rest, w.toList = b :: rest ∧ v = b.toNat ∧ n = 1 := by
  rw [u1, reads_unsigned 1 w v n]
  constructor
  · rintro ⟨b, rest, hw, rfl, hb, rfl⟩
    obtain ⟨x, rfl⟩ := List.length_eq_one_iff.mp hb
    exact ⟨x, rest, hw, by simp [Word.value], hb⟩
  · rintro ⟨b, rest, hw, rfl, rfl⟩
    exact ⟨[b], rest, hw, rfl, rfl, by simp [Word.value]⟩

end Reader

/-! ## Constants and tags -/

theorem Kind.ofTag?_eq_none_iff {tag : Nat} :
    ofTag? tag = none ↔ ∀ kind : Kind, kind.tag ≠ tag := by
  rw [ofTag?, List.find?_eq_none]
  constructor
  · intro h kind
    simpa using h kind (mem_all kind)
  · intro h kind _
    simpa using h kind

namespace Constant

theorem lenient_readIndex {ε : Type} : Lenient (readIndex : Reader ε Int) :=
  (Lenient.unsigned 2).bind fun _ ↦ .pure _

theorem lenient_read (kind : Kind) : Lenient (read kind) := by
  cases kind with
  | utf8 => exact ((Lenient.unsigned 2).bind fun n ↦ .take n).bind fun _ ↦ .pure _
  | integer => exact (Lenient.signed 4).bind fun _ ↦ .pure _
  | long => exact (Lenient.signed 8).bind fun _ ↦ .pure _
  | float => exact ((Lenient.unsigned 4).bind fun _ ↦ .pure _).bind fun _ ↦ .pure _
  | double => exact ((Lenient.unsigned 8).bind fun _ ↦ .pure _).bind fun _ ↦ .pure _
  | classInfo | moduleInfo | packageInfo | string | methodType =>
    exact lenient_readIndex.bind fun _ ↦ .pure _
  | fieldref | methodref | interfaceMethodref | nameAndType | dynamic | invokeDynamic =>
    exact lenient_readIndex.bind fun _ ↦ lenient_readIndex.bind fun _ ↦ .pure _
  | methodHandle =>
    exact (Lenient.unsigned 1).bind fun _ ↦ lenient_readIndex.bind fun _ ↦ .pure _

/-- The only rule about a constant is that its tag announces a kind. -/
theorem readTagged_eq_invalid_iff {w : Window} {e : FormatError} :
    readTagged w = .error (.invalid e) ↔
      ∃ tag rest, w.toList = tag :: rest ∧ Kind.ofTag? tag.toNat = none ∧
        e = .unknownTag tag.toNat := by
  rw [readTagged, bind_eq_invalid]
  constructor
  · rintro (h | ⟨v, n, hv, -, h⟩)
    · exact absurd h (Lenient.unsigned 1 w e)
    · obtain ⟨tag, rest, hw, rfl, rfl⟩ := u1_eq_ok_iff.mp hv
      cases ht : Kind.ofTag? tag.toNat with
      | some kind =>
        rw [ht] at h
        exact absurd h (lenient_read kind _ e)
      | none =>
        rw [ht] at h
        cases h
        exact ⟨tag, rest, hw, ht, rfl⟩
  · rintro ⟨tag, rest, hw, ht, rfl⟩
    have htag := u1_eq_ok_iff (ε := FormatError) |>.mpr ⟨tag, rest, hw, rfl, rfl⟩
    refine .inr ⟨tag.toNat, 1, htag, Bounded.unsigned 1 htag, ?_⟩
    rw [ht]
    rfl

theorem slots_eq_one_or_two (c : Constant) : c.slots = 1 ∨ c.slots = 2 := by
  cases c <;> simp [slots]

theorem slots_eq_two_iff {c : Constant} : c.slots = 2 ↔ c.kind = .long ∨ c.kind = .double := by
  cases c with
  | named kind | member kind | dynamic kind =>
    cases kind <;>
      simp [slots, Constant.kind, NamedKind.kind, MemberKind.kind, DynamicKind.kind]
  | _ => simp [slots, kind]

end Constant

/-! ## Numbers -/

namespace Raw

/-- The number of the constant in place `k`, where the first constant has the number one. -/
def start (rs : List Constant) (k : Nat) : Nat := 1 + ((rs.take k).map (·.value.slots)).sum

theorem fills_iff {count index : Nat} {cs : List Bytecode.Constant} :
    Fills count index cs ↔
      (∀ k < cs.length, index + ((cs.take k).map (·.slots)).sum < count) ∧
        count ≤ index + (cs.map (·.slots)).sum := by
  induction cs generalizing index with
  | nil => simp [Fills]
  | cons c cs ih =>
    rw [Fills, ih, List.length_cons, Nat.forall_lt_succ_left]
    simp only [List.take_zero, List.take_succ_cons, List.map_nil, List.map_cons, List.sum_nil,
      List.sum_cons, Nat.add_zero, Nat.add_assoc, and_assoc]

theorem fills_one_iff {count : Nat} {rs : List Constant} :
    Fills count 1 (rs.map (·.value)) ↔
      (∀ k < rs.length, start rs k < count) ∧ count ≤ start rs rs.length := by
  simp only [fills_iff, start, List.length_map, ← List.map_take, List.map_map, List.take_length,
    Function.comp_def]

theorem start_le (rs : List Constant) (k : Nat) : start rs k ≤ start rs rs.length := by
  have hsum : (rs.map (·.value.slots)).sum =
      ((rs.take k).map (·.value.slots)).sum + ((rs.drop k).map (·.value.slots)).sum := by
    rw [← List.sum_append, ← List.map_append, List.take_append_drop]
  rw [start, start, List.take_length]
  omega

/-- Every constant stands in the first of its slots. -/
theorem getElem?_slots {cs : List Bytecode.Constant} {k : Nat} {c : Bytecode.Constant}
    (h : cs[k]? = some c) : (slots cs)[((cs.take k).map (·.slots)).sum]? = some (some c) := by
  induction cs generalizing k with
  | nil => cases h
  | cons c' cs ih =>
    rw [slots_cons]
    cases k with
    | zero =>
      cases h
      rfl
    | succ k =>
      have hpos := c'.slots_pos
      rw [List.take_succ_cons, List.map_cons, List.sum_cons,
        show c'.slots + ((cs.take k).map (·.slots)).sum =
          (c'.slots - 1 + ((cs.take k).map (·.slots)).sum) + 1 by omega,
        List.getElem?_cons_succ, List.getElem?_append_right (by simp),
        List.length_replicate, Nat.add_sub_cancel_left]
      exact ih (by simpa using h)

/-- A slot is empty exactly behind a constant that takes up two. -/
theorem isChain_slots {cs : List Bytecode.Constant} {x : Option Bytecode.Constant}
    (hx : ∀ c ∈ x, c.slots = 1) :
    (x :: slots cs).IsChain fun x y ↦ y = none ↔ ∃ c, x = some c ∧ c.slots = 2 := by
  induction cs generalizing x with
  | nil => exact .singleton x
  | cons c cs ih =>
    have hhead : some c = none ↔ ∃ c, x = some c ∧ c.slots = 2 := by
      simp only [reduceCtorEq, false_iff]
      rintro ⟨c, rfl, hc⟩
      rw [hx c rfl] at hc
      cases hc
    rw [slots_cons, List.isChain_cons_cons]
    refine ⟨hhead, ?_⟩
    rcases c.slots_eq_one_or_two with hc | hc
    · rw [hc]
      exact ih fun c' hc' ↦ by rwa [← Option.some.inj hc']
    · rw [hc]
      refine List.isChain_cons_cons.mpr ⟨by simp [hc], ?_⟩
      exact ih fun c' hc' ↦ by cases hc'

theorem length_slots (cs : List Bytecode.Constant) :
    (slots cs).length = (cs.map (·.slots)).sum := by
  rw [slots, List.length_flatMap]
  refine congrArg List.sum (List.map_congr_left fun c _ ↦ ?_)
  have hpos := c.slots_pos
  rw [List.length_cons, List.length_replicate]
  omega

/-- The bytes `b` start with a count and with constants whose numbers are below it; `rest` is what
follows them. -/
structure Reaches (b : List UInt8) (count : U 2) (rs : List Constant) (rest : List UInt8) :
    Prop where
  bytes_eq : b = count.encode ++ (rs.flatMap Constant.encode ++ rest)
  start_lt : ∀ k < rs.length, start rs k < count.val

/-- The bytes start with a count and with constants that use up the numbers below it. -/
def IsPool (b : List UInt8) : Prop :=
  ∃ count rs rest, Reaches b count rs rest ∧ count.val ≤ start rs rs.length

/-- Where one more constant has to follow, there is a byte that announces none. -/
def MeetsUnknownTag (b : List UInt8) (tag : UInt8) : Prop :=
  ∃ count rs rest, Reaches b count rs (tag :: rest) ∧ start rs rs.length < count.val ∧
    ∀ kind : Kind, kind.tag ≠ tag.toNat

namespace Pool

variable (r : Pool)

theorem length_encode : r.encode.length = 2 + (r.constants.map (·.encode.length)).sum := by
  rw [encode, List.length_append, U.encode, Word.length_bytes, List.length_flatMap]

theorem count_value : r.value.count = r.count.val := by
  have hfill := (fills_iff.mp r.fills).2
  rw [value, Bytecode.Pool.count_ofSlots, List.length_take, List.length_cons, length_slots]
  omega

/-- The slots of a pool that is written. -/
theorem get?_value {i : Nat} (hi : i < r.count.val) :
    r.value.get? i = (none :: slots (r.constants.map (·.value)))[i]?.join := by
  rw [Bytecode.Pool.get?]
  cases i with
  | zero => rfl
  | succ i =>
    have hindex : ((i + 1 : Nat) : Int) < r.value.count := by
      rw [count_value]
      omega
    rw [if_pos ⟨by omega, hindex⟩, Bytecode.Pool.stored?, if_pos ⟨by omega, hindex⟩, value,
      Bytecode.Pool.ofSlots, Int.toNat_natCast, List.getElem?_toArray,
      List.getElem?_take_of_lt hi]

theorem get?_value_eq_none {i : Int} (hi : i ≤ 0 ∨ r.count.val ≤ i) :
    r.value.get? i = none := by
  rw [Bytecode.Pool.get?, count_value, if_neg]
  omega

theorem get?_value_start {k : Nat} (hk : k < r.constants.length) :
    r.value.get? (start r.constants k) = some (r.constants[k]).value := by
  rw [r.get?_value ((fills_one_iff.mp r.fills).1 k hk), start, Nat.add_comm,
    List.getElem?_cons_succ]
  have hget : (r.constants.map (·.value))[k]? = some r.constants[k].value := by simp [hk]
  have hslot := getElem?_slots hget
  rw [← List.map_take, List.map_map] at hslot
  rw [show (fun c : Constant ↦ c.value.slots) = (·.slots) ∘ (·.value) from rfl, hslot]
  rfl

/-- The numbers below the count that hold no constant follow one that takes up two of them. -/
theorem get?_value_succ_eq_none_iff {i : Nat} (hi : i + 1 < r.count.val) :
    r.value.get? (i + 1 : Nat) = none ↔ ∃ c, r.value.get? i = some c ∧ c.slots = 2 := by
  have hlength : r.count.val ≤ (none :: slots (r.constants.map (·.value))).length := by
    have hfill := (fills_iff.mp r.fills).2
    rw [List.length_cons, length_slots]
    omega
  have hchain : (none :: slots (r.constants.map (·.value))).IsChain _ := isChain_slots (by simp)
  have hstep := List.isChain_iff_getElem.mp hchain i (by omega)
  rw [r.get?_value hi, r.get?_value (by omega), List.getElem?_eq_getElem (by omega),
    List.getElem?_eq_getElem (by omega)]
  exact hstep

end Pool

/-- Constants that use up the numbers below the count are those of a pool. -/
theorem Reaches.exists_pool {b rest : List UInt8} {count : U 2} {rs : List Constant}
    (h : Reaches b count rs rest) (hc : count.val ≤ start rs rs.length) :
    ∃ r : Pool, r.count = count ∧ r.constants = rs ∧ b = r.encode ++ rest := by
  obtain ⟨rfl, hlt⟩ := h
  refine ⟨⟨count, rs, fills_one_iff.mpr ⟨hlt, hc⟩⟩, rfl, rfl, ?_⟩
  rw [Pool.encode, List.append_assoc]

theorem isPool_iff {b : List UInt8} :
    IsPool b ↔ ∃ (r : Pool) (rest : List UInt8), b = r.encode ++ rest := by
  constructor
  · rintro ⟨count, rs, rest, h, hc⟩
    obtain ⟨r, -, -, hb⟩ := h.exists_pool hc
    exact ⟨r, rest, hb⟩
  · rintro ⟨r, rest, rfl⟩
    obtain ⟨hlt, hc⟩ := fills_one_iff.mp r.fills
    exact ⟨r.count, r.constants, rest, ⟨by rw [Pool.encode, List.append_assoc], hlt⟩, hc⟩

end Raw

namespace Pool

/-- The constants of a pool are found under their numbers, and nothing else is found. -/
structure Numbered (p : Pool) (count : Nat) (rs : List Raw.Constant) : Prop where
  get_start : ∀ k (hk : k < rs.length), p.get (Raw.start rs k) = .ok rs[k].value
  /-- A text is found as it was written. -/
  get_text : ∀ k (hk : k < rs.length) (content : Raw.Counted 2 UInt8) (text : Text),
    rs[k] = .utf8 content → content.items = ModifiedUtf8.encode text →
      p.get (Raw.start rs k) = .ok (.utf8 text)
  get_gap : ∀ i : Nat, 1 ≤ i → i < count →
    ((∃ e, p.get i = .error e) ↔
      ∃ c, p.get (i - 1) = .ok c ∧ (c.kind = .long ∨ c.kind = .double))
  get_zero : p.get 0 = .error (.noConstant 0)
  get_of_count_le : ∀ i : Int, count ≤ i → p.get i = .error (.noConstant i)

theorem get_eq_error_iff {p : Pool} {index : Int} :
    (∃ e, p.get index = .error e) ↔ p.get? index = none := by
  rw [get]
  cases p.get? index <;> simp

theorem get_eq_noConstant {p : Pool} {index : Int} (h : p.get? index = none) :
    p.get index = .error (.noConstant index) := by
  rw [get, h]

theorem numbered_value (r : Raw.Pool) : r.value.Numbered r.count.val r.constants where
  get_start k hk := get_eq_ok_iff.mpr (r.get?_value_start hk)
  get_text k hk content text hr hc := by
    rw [get_eq_ok_iff, r.get?_value_start hk, hr, Raw.Constant.value, hc, ModifiedUtf8.decode,
      ModifiedUtf8.units_encode, ModifiedUtf8.joinFrom_zero]
  get_gap i h₁ hi := by
    obtain ⟨i, rfl⟩ : ∃ k, i = k + 1 := ⟨i - 1, by omega⟩
    rw [get_eq_error_iff, r.get?_value_succ_eq_none_iff hi]
    simp only [get_eq_ok_iff, Constant.slots_eq_two_iff, Nat.cast_add, Nat.cast_one,
      add_sub_cancel_right]
  get_zero := get_eq_noConstant (r.get?_value_eq_none (.inl (Int.le_refl 0)))
  get_of_count_le i hi := get_eq_noConstant (r.get?_value_eq_none (.inr hi))

/-! ## Outcomes -/

/-- A rule is broken where a tag has to follow and the byte there is none. -/
theorem readFrom_eq_invalid_iff {index length : Nat} {p : Pool} {w : Window} {e : FormatError} :
    readFrom index p length w = .error (.invalid e) ↔
      ∃ (rs : List Raw.Constant) (tag : UInt8) (rest : List UInt8),
        w.toList = rs.flatMap Raw.Constant.encode ++ tag :: rest ∧
        index + (rs.map (·.value.slots)).sum < p.count ∧
        Kind.ofTag? tag.toNat = none ∧ e = .unknownTag tag.toNat := by
  fun_induction readFrom index p length w with
  | case1 index p length w hi fault hf =>
    rw [Except.error.injEq]
    constructor
    · rintro rfl
      obtain ⟨tag, rest, hw, ht, rfl⟩ := Constant.readTagged_eq_invalid_iff.mp hf
      exact ⟨[], tag, rest, hw, hi, ht, rfl⟩
    · rintro ⟨rs, tag, rest, hw, -, ht, rfl⟩
      cases rs with
      | nil =>
        have hread := Constant.readTagged_eq_invalid_iff.mpr ⟨tag, rest, hw, ht, rfl⟩
        exact Except.error.inj (hf.symm.trans hread)
      | cons r rs =>
        rw [List.flatMap_cons, List.append_assoc] at hw
        cases hf.symm.trans (Constant.decodes_readTagged.apply hw ⟨r, rfl, rfl⟩)
  | case2 index p length w hi c n hc ih =>
    rw [ih, Window.toList_drop, count_set]
    constructor
    · rintro ⟨rs, tag, rest, hrest, hlt, ht, rfl⟩
      obtain ⟨-, tail, hw, rfl, r, rfl, rfl⟩ := Constant.decodes_readTagged.of_apply hc
      rw [hw, List.drop_left] at hrest
      refine ⟨r :: rs, tag, rest, ?_, ?_, ht, rfl⟩
      · rw [hw, hrest, List.flatMap_cons, List.append_assoc]
      · rwa [List.map_cons, List.sum_cons, ← Nat.add_assoc]
    · rintro ⟨rs, tag, rest, hw, hlt, ht, rfl⟩
      cases rs with
      | nil =>
        -- A byte that is no tag is not read as a constant.
        cases hc.symm.trans (Constant.readTagged_eq_invalid_iff.mpr ⟨tag, rest, hw, ht, rfl⟩)
      | cons r rs =>
        rw [List.flatMap_cons, List.append_assoc] at hw
        cases hc.symm.trans (Constant.decodes_readTagged.apply hw ⟨r, rfl, rfl⟩)
        refine ⟨rs, tag, rest, ?_, ?_, ht, rfl⟩
        · rw [hw, List.drop_left]
        · rwa [List.map_cons, List.sum_cons, ← Nat.add_assoc] at hlt
  | case3 index p length w hi =>
    simp only [reduceCtorEq, false_iff]
    rintro ⟨rs, tag, rest, -, hlt, -⟩
    omega

theorem exists_read_eq_ok_iff {w : Window} :
    (∃ p n, read w = .ok (p, n)) ↔ Raw.IsPool w.toList := by
  rw [decodes_read.exists_ok_iff, Raw.isPool_iff]
  simp only [exists_eq', and_true]

theorem exists_numbered_of_reaches {w : Window} {count : Raw.U 2} {rs : List Raw.Constant}
    {rest : List UInt8} (h : Raw.Reaches w.toList count rs rest)
    (hc : count.val ≤ Raw.start rs rs.length) :
    ∃ p, read w = .ok (p, 2 + (rs.map (·.encode.length)).sum) ∧ p.Numbered count.val rs := by
  obtain ⟨r, rfl, rfl, hw⟩ := h.exists_pool hc
  refine ⟨r.value, ?_, numbered_value r⟩
  rw [← r.length_encode]
  exact decodes_read.apply hw ⟨r, rfl, rfl⟩

theorem read_eq_invalid_iff {w : Window} {e : FormatError} :
    read w = .error (.invalid e) ↔
      ∃ tag, Raw.MeetsUnknownTag w.toList tag ∧ e = .unknownTag tag.toNat := by
  refine (bind_eq_invalid (f := fun count ↦
    (readFrom 1 (empty count) 0 : FormatReader Pool))).trans ?_
  constructor
  · rintro (h | ⟨count, n, hcount, -, h⟩)
    · exact absurd h (Lenient.unsigned 2 w e)
    · obtain ⟨x, tail, hw, rfl, rfl⟩ := (decodes_word 2).eq_ok_iff.mp hcount
      obtain ⟨rs, tag, rest, hrest, hlt, ht, rfl⟩ := readFrom_eq_invalid_iff.mp h
      rw [Window.toList_drop, hw, List.drop_left] at hrest
      rw [count_empty] at hlt
      have hlast : Raw.start rs rs.length < x.val := by rwa [Raw.start, List.take_length]
      refine ⟨tag, ⟨x, rs, rest, ⟨by rw [hw, hrest], fun k _ ↦ ?_⟩, hlast, ?_⟩, rfl⟩
      · exact Nat.lt_of_le_of_lt (Raw.start_le rs k) hlast
      · exact Kind.ofTag?_eq_none_iff.mp ht
  · rintro ⟨tag, ⟨count, rs, rest, h, hlt, ht⟩, rfl⟩
    have hcount := (decodes_word (ε := FormatError) 2).eq_ok_iff.mpr
      ⟨count, _, h.bytes_eq, rfl, rfl⟩
    refine .inr ⟨count.val, count.encode.length, hcount, Bounded.unsigned 2 hcount, ?_⟩
    refine readFrom_eq_invalid_iff.mpr ⟨rs, tag, rest, ?_, ?_, Kind.ofTag?_eq_none_iff.mpr ht, rfl⟩
    · rw [Window.toList_drop, h.bytes_eq, List.drop_left]
    · rwa [count_empty, ← List.take_length (l := rs)]

/-- A pool is read exactly where a count stands with constants that use up the numbers below it.
The length is that of the count and the constants, and each constant is found under its number, a
text as it was before it was encoded.  Where no pool is read, a rule is broken if the place of a tag
is reached that holds none, and otherwise bytes are missing. -/
theorem read_outcome (w : Window) :
    ((∃ p n, read w = .ok (p, n)) ↔ Raw.IsPool w.toList) ∧
    (∀ count rs rest, Raw.Reaches w.toList count rs rest →
      count.val ≤ Raw.start rs rs.length →
        ∃ p, read w = .ok (p, 2 + (rs.map (·.encode.length)).sum) ∧ p.Numbered count.val rs) ∧
    (∀ e, read w = .error (.invalid e) ↔
      ∃ tag, Raw.MeetsUnknownTag w.toList tag ∧ e = .unknownTag tag.toNat) ∧
    ((∃ s, read w = .error (.truncated s)) ↔
      ¬ Raw.IsPool w.toList ∧ ∀ tag, ¬ Raw.MeetsUnknownTag w.toList tag) := by
  refine ⟨exists_read_eq_ok_iff, fun count rs rest h hc ↦ exists_numbered_of_reaches h hc,
    fun e ↦ read_eq_invalid_iff, ?_⟩
  · rw [← exists_read_eq_ok_iff]
    constructor
    · rintro ⟨s, hs⟩
      refine ⟨?_, fun tag ht ↦ ?_⟩
      · rintro ⟨p, n, hp⟩
        cases hs.symm.trans hp
      · cases hs.symm.trans (read_eq_invalid_iff.mpr ⟨tag, ht, rfl⟩)
    · rintro ⟨hok, htag⟩
      cases hr : read w with
      | ok r => exact absurd ⟨r.1, r.2, hr⟩ hok
      | error fault =>
        cases fault with
        | truncated s => exact ⟨s, rfl⟩
        | invalid e =>
          obtain ⟨tag, ht, -⟩ := read_eq_invalid_iff.mp hr
          exact absurd ht (htag tag)

/-- A long under number one leaves number two empty, and another constant follows under number
three. -/
theorem read_outcome_long :
    ∃ p, read (Window.ofList [0, 4, 5, 0, 0, 0, 0, 0, 0, 0, 7, 3, 0, 0, 0, 9]) = .ok (p, 16) ∧
      p.get 1 = .ok (.long 7) ∧ (∃ e, p.get 2 = .error e) ∧ p.get 3 = .ok (.integer 9) := by
  obtain ⟨p, hread, hp⟩ := (read_outcome (Window.ofList
    [0, 4, 5, 0, 0, 0, 0, 0, 0, 0, 7, 3, 0, 0, 0, 9])).2.1 4 [.long 7, .integer 9] []
    ⟨by rw [Window.toList_ofList]; decide, by decide⟩ (by decide)
  refine ⟨p, hread, hp.get_start 0 (by decide), ?_, hp.get_start 1 (by decide)⟩
  exact (hp.get_gap 2 (by decide) (by decide)).mpr ⟨_, hp.get_start 0 (by decide), .inl rfl⟩

end Pool

end Bytecode
