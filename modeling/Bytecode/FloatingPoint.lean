/-!
# Floating-point numbers

The bits of a float or double constant and the number they stand for, as an integer times a power
of two.
-/

namespace Bytecode

/-- The widths of the fields of a binary floating-point format. -/
structure FloatFormat where
  fraction : Nat
  exponent : Nat
deriving DecidableEq, Repr

/-- What the bits of a floating-point number stand for: `significand * 2 ^ exponent` with a sign if
the number is finite. -/
inductive FloatValue where
  | nan
  | infinite (negative : Bool)
  | finite (negative : Bool) (significand : Nat) (exponent : Int)
deriving DecidableEq, Repr

namespace FloatFormat

/-- The 32-bit format. -/
def single : FloatFormat := ⟨23, 8⟩

/-- The 64-bit format. -/
def double : FloatFormat := ⟨52, 11⟩

/-- The exponent of the last place of a subnormal number, the least there is. -/
def leastExponent (f : FloatFormat) : Int := 2 - (Nat.pow 2 (f.exponent - 1) : Nat) - f.fraction

/-- The number that a bit pattern stands for. -/
def value (f : FloatFormat) (bits : Nat) : FloatValue :=
  let fraction := bits % Nat.pow 2 f.fraction
  let biased := bits / Nat.pow 2 f.fraction % Nat.pow 2 f.exponent
  let negative := bits / Nat.pow 2 (f.fraction + f.exponent) % 2 == 1
  if biased = Nat.pow 2 f.exponent - 1 then
    if fraction = 0 then .infinite negative else .nan
  else if biased = 0 then .finite negative fraction f.leastExponent
  else .finite negative (Nat.pow 2 f.fraction + fraction) (f.leastExponent + (biased - 1))

/-- Scales a nonzero significand up to the full width of the format, as far as the least exponent
allows.  The number stays the same. -/
def normalize (f : FloatFormat) (significand : Nat) (exponent : Int) : Nat × Int :=
  let shift := min (f.fraction - significand.log2) (exponent - f.leastExponent).toNat
  (significand * Nat.pow 2 shift, exponent - shift)

end FloatFormat

end Bytecode
