import Bytecode.Decimal.Shortest
import Bytecode.Text

/-!
# How numbers are laid out

Numbers of a moderate size are written out in full, larger and smaller ones with an exponent.
`Decimal.Layout` holds the choices; `Layout.value` and `Layout.description` are the two that the
constants of a class file need.
-/

namespace Bytecode.Decimal

/-- Where positional notation ends, and how the special cases are spelled. -/
structure Layout where
  /-- The most digits before the point in positional notation. -/
  wholeDigits : Nat
  /-- The most zeros between the point and the first digit in positional notation. -/
  leadingZeros : Nat
  /-- Whether a negative zero shows its sign. -/
  signedZero : Bool
deriving DecidableEq, Repr

namespace Layout

/-- Positional up to 21 digits before the point and up to five zeros after it; a negative zero is
written like a positive one. -/
def description : Layout := ⟨21, 5, false⟩

/-- As in a description, but a negative zero shows its sign. -/
def value : Layout := { description with signedZero := true }

/-- A decimal without its sign. -/
def magnitude (l : Layout) (d : Decimal) : Text :=
  let digits := Text.ofNat d.coefficient
  let point : Int := d.exponent + digits.length
  if 0 < point ∧ point ≤ l.wholeDigits then
    if digits.length ≤ point then
      digits ++ List.replicate (point - digits.length).toNat (Text.unit '0')
    else digits.take point.toNat ++ "." ++ digits.drop point.toNat
  else if -(l.leadingZeros : Int) ≤ point ∧ point ≤ 0 then
    "0." ++ List.replicate (-point).toNat (Text.unit '0') ++ digits
  else
    let fraction : Text := if digits.length = 1 then [] else "." ++ digits.drop 1
    let sign : Text := if 0 < point then "+" else []
    digits.take 1 ++ fraction ++ "e" ++ sign ++ Text.ofInt (point - 1)

/-- A floating-point number, in the fewest digits that tell it from its neighbours in `f`. -/
def float (l : Layout) (f : FloatFormat) : FloatValue → Text
  | .nan => "NaN"
  | .infinite negative => if negative then "-Infinity" else "Infinity"
  | .finite negative significand exponent =>
    if significand = 0 then if negative && l.signedZero then "-0" else "0"
    else
      let magnitude := l.magnitude (Decimal.ofFinite f significand exponent)
      if negative then "-" ++ magnitude else magnitude

/-- The double with the given bits. -/
def double (l : Layout) (bits : UInt64) : Text :=
  l.float .double (FloatFormat.double.value bits.toNat)

/-- The float with the given bits, in the digits that tell it from other doubles. -/
def single (l : Layout) (bits : UInt32) : Text :=
  l.float .double (FloatFormat.single.value bits.toNat)

end Layout

end Bytecode.Decimal
