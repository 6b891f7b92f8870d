/-!
# Text as code units

A name in a class file may hold any sequence of 16-bit code units, and a long description is cut
after a fixed number of them, so text can hold one half of a surrogate pair without the other.
Text is therefore a list of code units rather than of characters.
-/

namespace Bytecode

/-- A sequence of 16-bit code units. -/
abbrev Text := List UInt16

namespace Text

/-! ## Characters -/

/-- The code units of a character: one, or the two halves of a surrogate pair. -/
def ofChar (c : Char) : Text :=
  if c.toNat < 0x10000 then [c.toNat.toUInt16]
  else
    [(0xD800 + (c.toNat - 0x10000) / 0x400).toUInt16,
      (0xDC00 + (c.toNat - 0x10000) % 0x400).toUInt16]

/-- The code units of a string. -/
def ofString (s : String) : Text := s.toList.flatMap ofChar

instance : Coe String Text := ⟨ofString⟩

/-- The code unit of a character below U+10000. -/
def unit (c : Char) : UInt16 := c.toNat.toUInt16

/-- The first half of a surrogate pair. -/
def isLeading (u : UInt16) : Bool := 0xD800 ≤ u && u ≤ 0xDBFF

/-- The second half of a surrogate pair. -/
def isTrailing (u : UInt16) : Bool := 0xDC00 ≤ u && u ≤ 0xDFFF

/-- The character of a code unit that is not part of a surrogate pair. -/
def loneChar (u : UInt16) : Char :=
  if isLeading u || isTrailing u then '\uFFFD' else Char.ofNat u.toNat

/-- The characters that code units stand for.  Half of a surrogate pair that stands alone becomes a
replacement character. -/
def toChars : Text → List Char
  | [] => []
  | [u] => [loneChar u]
  | u :: v :: rest =>
    if isLeading u && isTrailing v then
      Char.ofNat (0x10000 + (u.toNat - 0xD800) * 0x400 + (v.toNat - 0xDC00)) :: toChars rest
    else loneChar u :: toChars (v :: rest)

/-! ## Numbers -/

/-- The digits of `n` in a base of at most sixteen, most significant first, letters in lower case. -/
def digits (base n : Nat) : Text := (Nat.toDigits base n).map unit

/-- A natural number in decimal. -/
def ofNat (n : Nat) : Text := digits 10 n

/-- An integer in some base: a minus sign where it is negative, then its absolute value. -/
def ofIntBase (base : Nat) (i : Int) : Text :=
  if i < 0 then unit '-' :: digits base i.natAbs else digits base i.natAbs

/-- An integer in decimal. -/
def ofInt (i : Int) : Text := ofIntBase 10 i

/-- An integer in lower-case hexadecimal, without leading zeros. -/
def hex (i : Int) : Text := ofIntBase 16 i

/-- The capital form of an ASCII letter; every other code unit is kept. -/
def upperUnit (u : UInt16) : UInt16 :=
  if unit 'a' ≤ u ∧ u ≤ unit 'z' then u - 32 else u

/-- An integer in upper-case hexadecimal, without leading zeros. -/
def upperHex (i : Int) : Text := (hex i).map upperUnit

/-! ## Layout -/

/-- Fills `t` up on the left to `width` code units; a longer text is kept as it is. -/
def padLeft (width : Nat) (fill : Char) (t : Text) : Text :=
  List.replicate (width - t.length) (unit fill) ++ t

/-- The texts one after another with a separator between neighbours. -/
def join (separator : Text) (parts : List Text) : Text := separator.intercalate parts

/-- Splits at every newline.  The empty text has one empty line, and joining the lines with newlines
gives the text back. -/
def lines : Text → List Text
  | [] => [[]]
  | u :: rest =>
    if u = unit '\n' then [] :: lines rest
    else
      match lines rest with
      | [] => [[u]]
      | line :: more => (u :: line) :: more

/-- Replaces every occurrence of one character by another. -/
def replace (old new : Char) (t : Text) : Text :=
  t.map fun u ↦ if u = unit old then unit new else u

/-- What follows the last occurrence of `c`, or all of the text if `c` does not occur. -/
def afterLast (c : Char) : Text → Text
  | [] => []
  | u :: rest =>
    if unit c ∈ rest then afterLast c rest
    else if u = unit c then rest
    else u :: rest

/-- What follows the first occurrence of `c`, if there is one. -/
def afterFirst? (c : Char) : Text → Option Text
  | [] => none
  | u :: rest => if u = unit c then some rest else afterFirst? c rest

theorem lines_ne_nil (t : Text) : lines t ≠ [] := by
  cases t with
  | nil => simp [lines]
  | cons u rest =>
    rw [lines]
    split
    · simp
    · split <;> simp

end Text

end Bytecode
