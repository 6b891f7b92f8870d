/-!
# Big-endian words

Numbers of a fixed number of bytes, most significant byte first; negative numbers in two's
complement.
-/

namespace Bytecode.Word

/-- The number that a sequence of bytes stands for. -/
def value (bytes : List UInt8) : Nat := bytes.foldl (fun n b ↦ 256 * n + b.toNat) 0

/-- The last `width` bytes of a number. -/
def bytes : Nat → Nat → List UInt8
  | 0, _ => []
  | width + 1, n => (n / Nat.pow 256 width).toUInt8 :: bytes width n

/-- The number in two's complement that a word of `width` bytes stands for. -/
def signed (width n : Nat) : Int :=
  if 2 * n < Nat.pow 256 width then (n : Int) else (n : Int) - (Nat.pow 256 width : Nat)

/-- The word of `width` bytes that stands for a number in two's complement. -/
def ofSigned (width : Nat) (i : Int) : Nat := (i % (Nat.pow 256 width : Nat)).toNat

@[simp] theorem length_bytes (width n : Nat) : (bytes width n).length = width := by
  induction width with
  | zero => rfl
  | succ width ih => simp [bytes, ih]

end Bytecode.Word
