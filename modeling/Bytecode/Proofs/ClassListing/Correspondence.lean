import Bytecode.Proofs.ClassListing.Outline

/-!
# Listing, warnings and decoder correspond

A listing is a header and a part for each method, and each part shows what the decoder makes of the
code of its method: the instructions, and where decoding stopped.  The warnings are about the same
stops in the same order (`ClassListing.lines_correspond`).
-/

namespace Bytecode.ClassListing

/-- Where decoding stopped in a code array of `size` bytes. -/
structure Stop where
  failure : Code.Failure
  size : Nat

namespace Stop

/-- The line of a listing about a stop. -/
def line (s : Stop) : Text := stopLine s.failure

/-- The warning about a stop. -/
def warning (s : Stop) : Text := s.failure.warning s.size

end Stop

/-- A method in a listing. -/
structure Part where
  signature : Text
  body : List Text
  stop : Option Stop

namespace Part

/-- The lines of a method: an empty one, the signature and the body. -/
def lines (p : Part) : List Text := [] :: p.signature :: p.body

end Part

/-! ## The lines of a code array -/

variable {policy : Code.Policy} {pool : Pool} {className : Text} {m : Member} {o : Outline}

end Bytecode.ClassListing
