import Bytecode.Assembly
import Bytecode.Proofs.Reader.Language

/-!
# Fields are read as they are written

The bytes that are written for an operand are those that the reader of its field reads as that
operand.  A number that does not fit is not written, and every string of the width of a field is
written for some number.
-/

namespace Bytecode

/-- A successful step after another. -/
theorem except_bind_eq_ok {ε α β : Type} {x : Except ε α} {f : α → Except ε β} {b : β} :
    (x >>= f) = .ok b ↔ ∃ a, x = .ok a ∧ f a = .ok b := by
  cases x with
  | error e => simp [bind, Except.bind]
  | ok a => simp [bind, Except.bind]

namespace Assembly

namespace Field

/-- The number that the bytes of a field stand for. -/
def number (f : Field) (b : List UInt8) : Int :=
  match f with
  | .u1 | .u2 => Word.value b
  | .s1 | .s2 | .s4 => Word.signed f.width (Word.value b)

/-- Every string of the right width stands for a number that fits. -/
theorem number_fits {f : Field} {b : List UInt8} (hb : b.length = f.width) :
    f.least ≤ f.number b ∧ f.number b ≤ f.greatest := by
  have hlt := Word.value_lt b
  rw [hb] at hlt
  cases f with
  | u1 | u2 =>
    simp only [number, width, least, greatest] at hlt ⊢
    omega
  | s1 | s2 | s4 =>
    simp only [number, width, least, greatest] at hlt ⊢
    have hrange := Word.signed_range hlt
    omega

theorem bytes_number {f : Field} {b : List UInt8} (hb : b.length = f.width) :
    Word.bytes f.width (Word.ofSigned f.width (f.number b)) = b := by
  have hlt := Word.value_lt b
  have hbytes := Word.bytes_value b
  rw [hb] at hlt hbytes
  cases f with
  | u1 | u2 =>
    simp only [number, width] at hlt hbytes ⊢
    rw [Word.ofSigned_of_nonneg (by omega) (by omega), Int.toNat_natCast, hbytes]
  | s1 | s2 | s4 =>
    simp only [number, width] at hlt hbytes ⊢
    rw [Word.ofSigned_signed hlt, hbytes]

theorem number_bytes {f : Field} {v : Int} (hv : f.least ≤ v ∧ v ≤ f.greatest) :
    f.number (Word.bytes f.width (Word.ofSigned f.width v)) = v := by
  have hread := Word.value_bytes_of_lt (Word.ofSigned_lt f.width v)
  cases f with
  | u1 | u2 =>
    simp only [number, width, least, greatest] at hv hread ⊢
    rw [hread, Word.ofSigned_of_nonneg hv.1 (by omega), Int.toNat_of_nonneg hv.1]
  | s1 | s2 | s4 =>
    simp only [number, width, least, greatest] at hv hread ⊢
    rw [hread, Word.signed_ofSigned (by omega) (by omega)]

theorem write_eq_ok_iff {f : Field} {v : Int} {b : List UInt8} :
    f.write v = .ok b ↔ b.length = f.width ∧ f.number b = v := by
  rw [write]
  constructor
  · intro h
    split at h
    · next hv =>
      cases h
      exact ⟨Word.length_bytes _ _, number_bytes hv⟩
    · cases h
  · rintro ⟨hb, rfl⟩
    rw [if_pos (number_fits hb), bytes_number hb]

theorem length_of_write {f : Field} {v : Int} {b : List UInt8} (h : f.write v = .ok b) :
    b.length = f.width := (write_eq_ok_iff.mp h).1

theorem exists_nat_of_write_u1 {v : Int} {b : List UInt8} (h : u1.write v = .ok b) :
    ∃ n : Nat, v = n := ⟨_, (write_eq_ok_iff.mp h).2.symm⟩

theorem exists_nat_of_write_u2 {v : Int} {b : List UInt8} (h : u2.write v = .ok b) :
    ∃ n : Nat, v = n := ⟨_, (write_eq_ok_iff.mp h).2.symm⟩

end Field

/-- The words of a switch table. -/
abbrev Words : List Int → List UInt8 → Prop := Reader.Sequence fun v b ↦ Field.s4.write v = .ok b

theorem writeFields_cons_eq_ok {f : Field} {fs : List Field} {v : Int} {vs : List Int}
    {b : List UInt8} :
    writeFields (f :: fs) (v :: vs) = .ok b ↔
      ∃ b₁ b₂, f.write v = .ok b₁ ∧ writeFields fs vs = .ok b₂ ∧ b₁ ++ b₂ = b := by
  simp only [writeFields, except_bind_eq_ok, Except.ok.injEq]
  constructor
  · rintro ⟨b₁, h₁, b₂, h₂, rfl⟩
    exact ⟨b₁, b₂, h₁, h₂, rfl⟩
  · rintro ⟨b₁, b₂, h₁, h₂, rfl⟩
    exact ⟨b₁, h₁, b₂, h₂, rfl⟩

theorem writeFields_words_iff {vs : List Int} {b : List UInt8} :
    writeFields (List.replicate vs.length .s4) vs = .ok b ↔ Words vs b := by
  induction vs generalizing b with
  | nil =>
    constructor
    · rintro ⟨⟩
      exact .nil
    · rintro ⟨⟩
      rfl
  | cons v vs ih =>
    rw [List.length_cons, List.replicate_succ, writeFields_cons_eq_ok]
    constructor
    · rintro ⟨b₁, b₂, h₁, h₂, rfl⟩
      exact .cons h₁ (ih.mp h₂)
    · rintro (_ | ⟨h₁, h₂⟩)
      exact ⟨_, _, h₁, ih.mpr h₂, rfl⟩

end Assembly

namespace Reader

open Assembly

variable {ε : Type}

theorem reads_u1 : Reads (u1 : Reader ε Nat) fun n b ↦ Field.u1.write n = .ok b :=
  (reads_unsigned 1).congr fun n b ↦ by
    simp [Field.write_eq_ok_iff, Field.number, Field.width]

theorem reads_u2 : Reads (u2 : Reader ε Nat) fun n b ↦ Field.u2.write n = .ok b :=
  (reads_unsigned 2).congr fun n b ↦ by
    simp [Field.write_eq_ok_iff, Field.number, Field.width]

theorem reads_s1 : Reads (s1 : Reader ε Int) fun i b ↦ Field.s1.write i = .ok b :=
  (reads_signed 1).congr fun i b ↦ by
    simp [Field.write_eq_ok_iff, Field.number, Field.width]

theorem reads_s2 : Reads (s2 : Reader ε Int) fun i b ↦ Field.s2.write i = .ok b :=
  (reads_signed 2).congr fun i b ↦ by
    simp [Field.write_eq_ok_iff, Field.number, Field.width]

theorem reads_s4 : Reads (s4 : Reader ε Int) fun i b ↦ Field.s4.write i = .ok b :=
  (reads_signed 4).congr fun i b ↦ by
    simp [Field.write_eq_ok_iff, Field.number, Field.width]

end Reader

end Bytecode
