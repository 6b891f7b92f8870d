import Bytecode.Proofs.Pool.Description
import Bytecode.Proofs.Text.Lines
import Bytecode.Proofs.Text.Numeral

/-!
# Texts inside descriptions

Numbers, quoted strings and complaints about broken references are written without a newline.  The
other descriptions hold texts of the pool as they are, so that a description has a newline exactly
if one of these texts has one (`Pool.newline_mem_describe_iff`).
-/

namespace Bytecode

open Text (unit)

/-! ## Texts without a newline -/

namespace Text

theorem notMem_join {u : UInt16} {separator : Text} {parts : List Text} (hs : u ∉ separator)
    (hparts : ∀ part ∈ parts, u ∉ part) : u ∉ join separator parts := by
  cases parts with
  | nil => exact List.not_mem_nil
  | cons part parts =>
    rw [List.forall_mem_cons] at hparts
    rw [join_cons, List.mem_append, List.mem_flatMap, not_or, not_exists]
    refine ⟨hparts.1, ?_⟩
    rintro next ⟨hnext, h⟩
    exact (List.mem_append.mp h).elim hs (hparts.2 next hnext)

/-- Digits are written with characters of sixteen kinds. -/
theorem newline_notMem_digits (n : Nat) : unit '\n' ∉ digits 16 n := by
  have hdigit : ∀ d < 16, unit '\n' ≠ unit d.digitChar := by decide
  induction n using Nat.strongRecOn with
  | ind n ih =>
    rcases Nat.lt_or_ge n 16 with hn | hn
    · rw [digits, Nat.toDigits_of_lt_base hn, List.map_singleton, List.mem_singleton]
      exact hdigit n hn
    · have hrest := ih (n / 16) (by omega)
      rw [digits] at hrest
      rw [digits, Nat.toDigits_of_base_le (by decide) hn, List.map_append, List.map_singleton,
        List.mem_append, List.mem_singleton, not_or]
      exact ⟨hrest, hdigit _ (Nat.mod_lt _ (by decide))⟩

theorem newline_notMem_numericEscape (u : UInt16) : unit '\n' ∉ numericEscape u := by
  have hhex : unit '\n' ∉ hex u.toNat := by
    rw [hex, ofIntBase, if_neg (by omega)]
    exact newline_notMem_digits _
  simp +decide [numericEscape, padLeft, hhex]

theorem newline_notMem_escapeUnit (u : UInt16) : unit '\n' ∉ escapeUnit u := by
  rw [escapeUnit]
  split_ifs with _ _ _ _ hu
  · decide
  · decide
  · decide
  · decide
  · decide
  · decide
  · decide
  · exact newline_notMem_numericEscape u
  · exact fun h ↦ hu (List.mem_singleton.mp h).symm

theorem newline_notMem_escape (t : Text) : unit '\n' ∉ escape t := by
  fun_induction escape t with
  | case1 => exact List.not_mem_nil
  | case2 u => exact newline_notMem_escapeUnit u
  | case3 u v rest hpair ih =>
    have hu : unit '\n' ≠ u := by
      rintro rfl
      simp +decide at hpair
    have hv : unit '\n' ≠ v := by
      rintro rfl
      simp +decide at hpair
    simp [hu, hv, ih]
  | case4 u v rest _ ih =>
    rw [List.mem_append, not_or]
    exact ⟨newline_notMem_escapeUnit u, ih⟩

theorem newline_notMem_quote (t : Text) : unit '\n' ∉ t.quote := by
  simp +decide [quote, newline_notMem_escape]

end Text

namespace Decimal.Layout

theorem newline_notMem_magnitude (l : Layout) (d : Decimal) : unit '\n' ∉ l.magnitude d := by
  have hi := Text.notMem_ofInt (u := unit '\n') rfl
  have hn := Text.notMem_ofNat (u := unit '\n') rfl d.coefficient
  have htake (k : Nat) : unit '\n' ∉ (Text.ofNat d.coefficient).take k := fun h ↦
    hn (List.mem_of_mem_take h)
  have hdrop (k : Nat) : unit '\n' ∉ (Text.ofNat d.coefficient).drop k := fun h ↦
    hn (List.mem_of_mem_drop h)
  have htail : unit '\n' ∉ (Text.ofNat d.coefficient).tail := fun h ↦ hn (List.mem_of_mem_tail h)
  rw [magnitude]
  split_ifs <;> simp +decide [hi, hn, htake, hdrop, htail]

theorem newline_notMem_float (l : Layout) (f : FloatFormat) (x : FloatValue) :
    unit '\n' ∉ l.float f x := by
  cases x with
  | nan => simp +decide [float]
  | infinite negative => cases negative <;> simp +decide [float]
  | finite negative significand exponent =>
    rw [float]
    split_ifs <;> simp +decide [newline_notMem_magnitude]

end Decimal.Layout

namespace Pool

theorem newline_notMem_handleName (kind : Int) : unit '\n' ∉ handleName kind := by
  have hi := Text.notMem_ofInt (u := unit '\n') rfl kind
  fun_cases handleName kind <;> simp +decide [hi]

end Pool

theorem PoolError.newline_notMem_message (e : PoolError) : unit '\n' ∉ e.message := by
  have hi := Text.notMem_ofInt (u := unit '\n') rfl
  have hkind (k : Kind) : unit '\n' ∉ Text.ofString k.name := by cases k <;> decide
  cases e with
  | noConstant index => simp +decide [message, hi]
  | wrongKind expected index found =>
    have hexpected : unit '\n' ∉
        Text.join " or " (expected.map fun k ↦ Text.ofString k.name) := by
      refine Text.notMem_join (by decide) fun part hpart ↦ ?_
      obtain ⟨k, -, rfl⟩ := List.mem_map.mp hpart
      exact hkind k
    simp +decide [message, hi, hkind, hexpected]

/-! ## Texts with a newline -/

namespace Pool

/-- The texts that stand as they are in the description of the constant at an index. -/
inductive Spells (p : Pool) (index : Int) (text : Text) : Prop where
  | utf8 (h : p.Utf8At index text)
  | named {kind : NamedKind} {i : Int} (h : p.get? index = some (.named kind i))
    (ht : p.Utf8At i text)
  | methodType {i : Int} (h : p.get? index = some (.methodType i)) (ht : p.Utf8At i text)
  | nameAndType {name descriptor : Text} (h : p.NameAndTypeAt index name descriptor)
    (ht : text ∈ [name, descriptor])
  | member {owner name descriptor : Text} (h : p.MemberAt index owner name descriptor)
    (ht : text ∈ [owner, name, descriptor])
  | methodHandle {kind i : Int} {owner name descriptor : Text}
    (h : p.get? index = some (.methodHandle kind i)) (hm : p.MemberAt i owner name descriptor)
    (ht : text ∈ [owner, name, descriptor])
  | dynamic {kind : DynamicKind} {bootstrap i : Int} {name descriptor : Text}
    (h : p.get? index = some (.dynamic kind bootstrap i)) (hn : p.NameAndTypeAt i name descriptor)
    (ht : text ∈ [name, descriptor])

section Newline

variable {p : Pool} {index : Int}

/-- Between the texts of a description no newline is written. -/
theorem Describes.exists_spells {description : Text} (h : p.Describes index description)
    (hn : unit '\n' ∈ description) : ∃ text, p.Spells index text ∧ unit '\n' ∈ text := by
  have hi := Text.notMem_ofInt (u := unit '\n') rfl
  cases h with
  | utf8 h => exact ⟨_, .utf8 h, hn⟩
  | integer | long => exact absurd hn (hi _)
  | float | double => exact absurd hn (Decimal.Layout.newline_notMem_float _ _ _)
  | named h ht => exact ⟨_, .named h ht, hn⟩
  | string => exact absurd hn (Text.newline_notMem_quote _)
  | @member owner name descriptor h =>
    obtain ⟨text, ht, hn⟩ : ∃ text ∈ [owner, name, descriptor], unit '\n' ∈ text := by
      simpa +decide using hn
    exact ⟨text, .member h ht, hn⟩
  | @nameAndType name descriptor h =>
    obtain ⟨text, ht, hn⟩ : ∃ text ∈ [name, descriptor], unit '\n' ∈ text := by
      simpa +decide using hn
    exact ⟨text, .nameAndType h ht, hn⟩
  | @methodHandle kind _ owner name descriptor h hm =>
    obtain ⟨text, ht, hn⟩ : ∃ text ∈ [owner, name, descriptor], unit '\n' ∈ text := by
      simpa +decide [newline_notMem_handleName] using hn
    exact ⟨text, .methodHandle h hm ht, hn⟩
  | methodType h ht => exact ⟨_, .methodType h ht, hn⟩
  | @dynamic _ _ _ name descriptor h hat =>
    obtain ⟨text, ht, hn⟩ : ∃ text ∈ [name, descriptor], unit '\n' ∈ text := by
      simpa +decide [hi] using hn
    exact ⟨text, .dynamic h hat ht, hn⟩

/-- What a description spells is a part of it. -/
theorem Spells.exists_describes {text : Text} (h : p.Spells index text) :
    ∃ description, p.Describes index description ∧ text ⊆ description := by
  cases h with
  | utf8 h => exact ⟨_, .utf8 h, List.Subset.refl _⟩
  | named h ht => exact ⟨_, .named h ht, List.Subset.refl _⟩
  | methodType h ht => exact ⟨_, .methodType h ht, List.Subset.refl _⟩
  | nameAndType h ht =>
    refine ⟨_, .nameAndType h, fun u hu ↦ ?_⟩
    simp only [List.mem_cons, List.not_mem_nil, or_false] at ht
    rcases ht with rfl | rfl <;> simp [hu]
  | member h ht =>
    refine ⟨_, .member h, fun u hu ↦ ?_⟩
    simp only [List.mem_cons, List.not_mem_nil, or_false] at ht
    rcases ht with rfl | rfl | rfl <;> simp [hu]
  | methodHandle h hm ht =>
    refine ⟨_, .methodHandle h hm, fun u hu ↦ ?_⟩
    simp only [List.mem_cons, List.not_mem_nil, or_false] at ht
    rcases ht with rfl | rfl | rfl <;> simp [hu]
  | dynamic h hn ht =>
    refine ⟨_, .dynamic h hn, fun u hu ↦ ?_⟩
    simp only [List.mem_cons, List.not_mem_nil, or_false] at ht
    rcases ht with rfl | rfl <;> simp [hu]

/-- A description has a newline exactly if a text that it spells has one. -/
theorem newline_mem_describe_iff :
    unit '\n' ∈ p.describe index ↔ ∃ text, p.Spells index text ∧ unit '\n' ∈ text := by
  constructor
  · intro hn
    rw [describe] at hn
    split at hn
    · next description h => exact (describeConstant_eq_ok_iff.mp h).exists_spells hn
    · next e _ => simp +decide [e.newline_notMem_message] at hn
  · rintro ⟨text, h, hn⟩
    obtain ⟨description, hd, hsub⟩ := h.exists_describes
    rw [describe, describeConstant_eq_ok_iff.mpr hd]
    exact hsub hn

end Newline

end Pool

end Bytecode
