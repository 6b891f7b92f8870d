import Bytecode.Code

/-!
# Listings

One line for each instruction: its offset, its opcode, its text and, where it refers to the constant
pool, the index and a description of the constant.  The lines of a switch table belong to the
instruction they follow.
-/

namespace Bytecode

/-- What a line of a listing is made from. -/
structure Line where
  offset : Int
  opcode : Int
  text : Text
  reference : Option Int
deriving DecidableEq, Repr

/-- The line of an instruction. -/
def Instruction.line (i : Instruction) : Line where
  offset := i.offset
  opcode := i.opcode.toNat
  text := i.text
  reference := i.poolIndex?.map Int.ofNat

namespace Line

/-- The most code units of a description that a listing shows. -/
def maxDescription : Nat := 1000

/-- Cuts a long description. -/
def truncate (description : Text) : Text := description.take maxDescription

/-- Writes a line.  `describe?` tells what stands at an index of the constant pool; without it only
the index is shown. -/
def render (describe? : Option (Int → Text)) (l : Line) : Text :=
  let head : Text :=
    "Offset " ++ (Text.ofInt l.offset).padLeft 4 '0' ++ ": opcode [" ++
      (Text.upperHex l.opcode).padLeft 2 '0' ++ "] " ++ l.text
  match l.reference, describe? with
  | none, _ => head
  | some index, none => head ++ " " ++ Text.ofInt index
  | some index, some describe =>
    head ++ " " ++ Text.ofInt index ++ " - " ++ truncate (describe index)

end Line

namespace Listing

/-- Writes lines one below the other. -/
def render (describe? : Option (Int → Text)) (ls : List Line) : Text :=
  Text.join "\n" (ls.map (·.render describe?))

/-- The indices whose description a listing asks for, in order. -/
def references (ls : List Line) : List Int := ls.filterMap (·.reference)

/-- The listing of a sequence of instructions. -/
def ofInstructions (describe? : Option (Int → Text)) (is : List Instruction) : Text :=
  render describe? (is.map (·.line))

end Listing

end Bytecode
