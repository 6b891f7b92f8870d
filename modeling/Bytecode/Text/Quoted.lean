import Bytecode.Text

/-!
# Quoted text

A string constant is described between double quotes.  A quote, a backslash and the control
characters are escaped, and so is half of a surrogate pair that stands alone; everything else,
whole pairs included, is written as it is.
-/

namespace Bytecode.Text

/-- A code unit by number: a backslash, `u` and four hexadecimal digits. -/
def numericEscape (u : UInt16) : Text := "\\u" ++ padLeft 4 '0' (hex u.toNat)

/-- A code unit that is not part of a surrogate pair, inside quotes. -/
def escapeUnit (u : UInt16) : Text :=
  if u = unit '"' then "\\\""
  else if u = unit '\\' then "\\\\"
  else if u = 8 then "\\b"
  else if u = 9 then "\\t"
  else if u = 10 then "\\n"
  else if u = 12 then "\\f"
  else if u = 13 then "\\r"
  else if u < 0x20 || isLeading u || isTrailing u then numericEscape u
  else [u]

/-- The inside of the quotes. -/
def escape : Text → Text
  | [] => []
  | [u] => escapeUnit u
  | u :: v :: rest =>
    if isLeading u && isTrailing v then u :: v :: escape rest
    else escapeUnit u ++ escape (v :: rest)

/-- A text between double quotes. -/
def quote (t : Text) : Text := "\"" ++ escape t ++ "\""

end Bytecode.Text
