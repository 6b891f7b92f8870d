import Bytecode.Proofs.Reader.Language
import Mathlib.Data.List.Forall2

/-!
# Readers of encodings

`Decodes p encode D` says that `p` reads exactly the strings that `encode` writes, and makes of each
of them what `D` says it denotes.  Numbers and counted lists carry their ranges, so that each of
them has an encoding and no string is left out.
-/

namespace Bytecode

namespace Raw

/-- An unsigned number of `width` bytes. -/
abbrev U (width : Nat) : Type := Fin (256 ^ width)

def U.encode {width : Nat} (x : U width) : List UInt8 := Word.bytes width x.val

/-- A list whose length is a number of `width` bytes. -/
structure Counted (width : Nat) (α : Type) where
  items : List α
  fits : items.length < 256 ^ width

/-- The length of the list and its items one behind the other. -/
def Counted.encode {width : Nat} {α : Type} (item : α → List UInt8) (c : Counted width α) :
    List UInt8 := Word.bytes width c.items.length ++ c.items.flatMap item

/-- A string of bytes with its length. -/
def Counted.encodeBytes {width : Nat} (c : Counted width UInt8) : List UInt8 :=
  Word.bytes width c.items.length ++ c.items

end Raw

namespace Reader

open Raw

variable {ε α β ρ σ : Type}

/-- `p` reads exactly the encodings of `ρ`, each as what it denotes. -/
def Decodes (p : Reader ε α) (encode : ρ → List UInt8) (D : ρ → α → Prop) : Prop :=
  Reads p fun a b ↦ ∃ r, D r a ∧ b = encode r

namespace Decodes

variable {p : Reader ε α} {encode : ρ → List UInt8} {D : ρ → α → Prop} {value : ρ → α}

theorem eq_ok_iff (hp : Decodes p encode D) {w : Window} {a : α} {n : Nat} :
    p w = .ok (a, n) ↔
      ∃ r rest, w.toList = encode r ++ rest ∧ n = (encode r).length ∧ D r a := by
  rw [hp w a n]
  constructor
  · rintro ⟨-, rest, hw, rfl, r, h, rfl⟩
    exact ⟨r, rest, hw, rfl, h⟩
  · rintro ⟨r, rest, hw, rfl, h⟩
    exact ⟨_, rest, hw, rfl, r, h, rfl⟩

/-- A reader succeeds exactly on encodings that denote something. -/
theorem exists_ok_iff (hp : Decodes p encode D) {w : Window} :
    (∃ a n, p w = .ok (a, n)) ↔ ∃ r rest, w.toList = encode r ++ rest ∧ ∃ a, D r a := by
  simp only [hp.eq_ok_iff]
  constructor
  · rintro ⟨a, n, r, rest, hw, -, h⟩
    exact ⟨r, rest, hw, a, h⟩
  · rintro ⟨r, rest, hw, a, h⟩
    exact ⟨a, _, r, rest, hw, rfl, h⟩

/-- The fields of a record may be encoded in place of the record. -/
theorem congr {encode' : σ → List UInt8} {D' : σ → α → Prop} (hp : Decodes p encode D) {f : σ → ρ}
    (hf : f.Surjective) (he : ∀ s, encode (f s) = encode' s) (hD : ∀ s a, D (f s) a ↔ D' s a) :
    Decodes p encode' D' := by
  refine Reads.congr hp fun a b ↦ ?_
  constructor
  · rintro ⟨r, h, rfl⟩
    obtain ⟨s, rfl⟩ := hf r
    exact ⟨s, (hD s a).mp h, he s⟩
  · rintro ⟨s, h, rfl⟩
    exact ⟨f s, (hD s a).mpr h, (he s).symm⟩

protected theorem bind {q : α → Reader ε β} {encode' : σ → List UInt8} {D' : α → σ → β → Prop}
    (hp : Decodes p encode D) (hq : ∀ a, Decodes (q a) encode' (D' a)) :
    Decodes (p >>= q) (fun r : ρ × σ ↦ encode r.1 ++ encode' r.2)
      fun r c ↦ ∃ a, D r.1 a ∧ D' a r.2 c := by
  refine (Reads.bind hp hq).congr fun c b ↦ ?_
  constructor
  · rintro ⟨a, -, -, rfl, ⟨r, ha, rfl⟩, s, hc, rfl⟩
    exact ⟨(r, s), ⟨a, ha, hc⟩, rfl⟩
  · rintro ⟨⟨r, s⟩, ⟨a, ha, hc⟩, rfl⟩
    exact ⟨a, _, _, rfl, ⟨r, ha, rfl⟩, s, hc, rfl⟩

/-- What comes after the last byte only has to hold of the values that were read. -/
theorem finish {f : α → Reader ε β} {P : α → β → Prop} (hp : Decodes p encode D)
    (hf : ∀ a, Reads (f a) fun c b ↦ P a c ∧ b = []) :
    Decodes (p >>= f) encode fun r c ↦ ∃ a, D r a ∧ P a c := by
  refine (Reads.bind hp hf).congr fun c b ↦ ?_
  constructor
  · rintro ⟨a, -, -, rfl, ⟨r, ha, rfl⟩, hc, rfl⟩
    exact ⟨r, ⟨a, ha, hc⟩, List.append_nil _⟩
  · rintro ⟨r, ⟨a, ha, hc⟩, rfl⟩
    exact ⟨a, _, [], (List.append_nil _).symm, ⟨r, ha, rfl⟩, hc, rfl⟩

protected theorem map (hp : Decodes p encode fun r a ↦ value r = a) (f : α → β) :
    Decodes (p >>= fun a ↦ pure (f a)) encode fun r c ↦ f (value r) = c := by
  refine (hp.finish fun a ↦ Reads.pure (f a)).congr Function.surjective_id (fun _ ↦ rfl)
    fun r c ↦ ?_
  simp only [id_eq, exists_eq_left', @eq_comm _ c]

end Decodes

/-! ## Numbers and lists -/

theorem decodes_word (width : Nat) :
    Decodes (unsigned width : Reader ε Nat) U.encode fun (x : U width) n ↦ x.val = n := by
  refine (reads_unsigned width).congr fun n b ↦ ?_
  constructor
  · rintro ⟨rfl, rfl⟩
    exact ⟨⟨Word.value b, Word.value_lt b⟩, rfl, (Word.bytes_value b).symm⟩
  · rintro ⟨x, rfl, rfl⟩
    exact ⟨Word.length_bytes _ _, Word.value_bytes_of_lt x.isLt⟩

theorem decodes_bytes (width : Nat) :
    Decodes (bytes (unsigned width) : Reader ε _) Counted.encodeBytes
      fun (c : Counted width UInt8) bs ↦ c.items = bs := by
  refine (Reads.bind (decodes_word width) fun n ↦ reads_take n).congr fun bs b ↦ ?_
  constructor
  · rintro ⟨-, b₁, b₂, rfl, ⟨x, rfl, rfl⟩, hn, rfl⟩
    have hfits : b₂.length < 256 ^ width := hn ▸ x.isLt
    refine ⟨⟨b₂, hfits⟩, rfl, ?_⟩
    rw [U.encode, ← hn, Counted.encodeBytes]
  · rintro ⟨c, rfl, rfl⟩
    exact ⟨_, _, _, rfl, ⟨⟨c.items.length, c.fits⟩, rfl, rfl⟩, rfl, rfl⟩

theorem sequence_encode_iff {encode : ρ → List UInt8} {D : ρ → α → Prop} {as : List α}
    {b : List UInt8} :
    Sequence (fun a b ↦ ∃ r, D r a ∧ b = encode r) as b ↔
      ∃ rs, List.Forall₂ D rs as ∧ b = rs.flatMap encode := by
  constructor
  · intro h
    induction h with
    | nil => exact ⟨[], .nil, rfl⟩
    | cons head _ ih =>
      obtain ⟨r, hr, rfl⟩ := head
      obtain ⟨rs, hrs, rfl⟩ := ih
      exact ⟨r :: rs, .cons hr hrs, rfl⟩
  · rintro ⟨rs, hrs, rfl⟩
    induction hrs with
    | nil => exact .nil
    | cons head _ ih => exact .cons ⟨_, head, rfl⟩ ih

theorem Decodes.repeated {p : Reader ε α} {encode : ρ → List UInt8} {D : ρ → α → Prop}
    (hp : Decodes p encode D) :
    Decodes (repeated p) (Counted.encode encode) fun (c : Counted 2 ρ) as ↦
      List.Forall₂ D c.items as := by
  refine (Reads.bind (decodes_word 2) fun n ↦ reads_times hp n).congr fun as b ↦ ?_
  simp only [sequence_encode_iff]
  constructor
  · rintro ⟨-, b₁, b₂, rfl, ⟨x, rfl, rfl⟩, hn, rs, hrs, rfl⟩
    have hlength : rs.length = x.val := hrs.length_eq.trans hn
    have hfits : rs.length < 256 ^ 2 := hlength ▸ x.isLt
    refine ⟨⟨rs, hfits⟩, hrs, ?_⟩
    rw [U.encode, ← hlength, Counted.encode]
  · rintro ⟨c, hrs, rfl⟩
    exact ⟨_, _, _, rfl, ⟨⟨c.items.length, c.fits⟩, rfl, rfl⟩, hrs.length_eq.symm, _, hrs, rfl⟩

end Reader

end Bytecode
