import Bytecode.Catalog

/-!
# Operands

What follows an opcode, by meaning, with three views of it: the text of the instruction, the plain
numbers in the order in which the code array holds them, and the entry of the constant pool that the
instruction refers to.
-/

namespace Bytecode

/-! ## Alignment -/

/-- The least multiple of four that is not below `x`. -/
def alignUp (x : Int) : Int := x + 3 - (x + 3) % 4

/-- The number of bytes from `position` to the next multiple of four. -/
def padding (position : Nat) : Nat := (alignUp position - position).toNat

theorem padding_lt (position : Nat) : padding position < 4 := by
  simp only [padding, alignUp]
  omega

theorem add_padding_mod (position : Nat) : (position + padding position) % 4 = 0 := by
  simp only [padding, alignUp]
  omega

/-! ## The wide prefix -/

/-- What the wide prefix does to an instruction. -/
inductive Widening where
  /-- The index of a local variable takes two bytes. -/
  | localIndex
  /-- The index and the amount of an increment take two bytes each. -/
  | increment
  /-- The instruction cannot be widened. -/
  | unsupported
deriving DecidableEq, Repr

/-- The instructions with a one-byte index of a local variable. -/
def widenedLocals : List String :=
  ["iload", "lload", "fload", "dload", "aload", "istore", "lstore", "fstore", "dstore", "astore",
    "ret"]

def Entry.widening (e : Entry) : Widening :=
  if e.mnemonic ∈ widenedLocals then .localIndex
  else if e.mnemonic = "iinc" then .increment
  else .unsupported

/-! ## Operands -/

/-- The operands of an instruction. -/
inductive Operands where
  | none
  /-- A number, an index of a local variable or a jump. -/
  | immediate (value : Int)
  | increment (index : Nat) (amount : Int)
  /-- An entry of the constant pool and nothing else. -/
  | constant (index : Nat)
  | interfaceCall (index count : Nat)
  | arrayOf (typeCode : Nat)
  | multiArray (index dimensions : Nat)
  | tableSwitch (default low high : Int) (jumps : List Int)
  | lookupSwitch (default count : Int) (cases : List (Int × Int))
  | wideLocal (target : Entry) (index : Nat)
  | wideIncrement (target : Entry) (index : Nat) (amount : Int)
  | wideUnknown (opcode : Nat)
deriving DecidableEq, Repr

/-- The name of a primitive type by its code in an array instruction. -/
def arrayTypeName? : Nat → Option String
  | 4 => some "boolean"
  | 5 => some "char"
  | 6 => some "float"
  | 7 => some "double"
  | 8 => some "byte"
  | 9 => some "short"
  | 10 => some "int"
  | 11 => some "long"
  | _ => none

namespace Operands

/-- Stands for an instruction without an entry in the catalog. -/
def unknownOpcode : String := "[Unknown opcode]"

/-- Stands for the name of a primitive type that does not exist. -/
def unknownArrayType : String := "[ERROR: Unknown type]"

/-- Stands for a wide prefix before an instruction that cannot be widened. -/
def unknownWideOpcode : String := "wide [Unknown opcode]"

/-- One indented line for each part, every line after a newline. -/
def caseLines (parts : List Text) : Text := parts.flatMap fun part ↦ "\n    " ++ part

/-- An increment of a local variable. -/
def incrementText (name : Text) (index : Nat) (amount : Int) : Text :=
  name ++ " index = " ++ Text.ofNat index ++ " const = " ++ Text.ofInt amount

/-- The text of the instruction called `name` with these operands.  The entries of a switch follow on
lines of their own. -/
def text (name : Text) : Operands → Text
  | none => name
  | immediate value => name ++ " " ++ Text.ofInt value
  | increment index amount => incrementText name index amount
  | constant _ => name
  | interfaceCall index count =>
    name ++ " interface=" ++ Text.ofNat index ++ ", nargs=" ++ Text.ofNat count
  | arrayOf typeCode => name ++ " " ++ ((arrayTypeName? typeCode).getD unknownArrayType : String)
  | multiArray index dimensions =>
    name ++ " type=" ++ Text.ofNat index ++ " dimensions=" ++ Text.ofNat dimensions
  | tableSwitch default low high jumps =>
    name ++ " " ++ Text.ofInt low ++ " to " ++ Text.ofInt high ++ ": default=" ++
      Text.ofInt default ++ caseLines (jumps.map Text.ofInt)
  | lookupSwitch default _ cases =>
    name ++ ": default=" ++ Text.ofInt default ++
      caseLines (cases.map fun (value, jump) ↦
        "case " ++ Text.ofInt value ++ ": " ++ Text.ofInt jump)
  | wideLocal target index => "wide " ++ Text.ofString target.mnemonic ++ " " ++ Text.ofNat index
  | wideIncrement target index amount =>
    incrementText ("wide " ++ Text.ofString target.mnemonic) index amount
  | wideUnknown _ => unknownWideOpcode

/-- The operands as plain numbers, in the order in which the code array holds them. -/
def values : Operands → List Int
  | none => []
  | immediate value => [value]
  | increment index amount => [(index : Int), amount]
  | constant index => [(index : Int)]
  | interfaceCall index count => [(index : Int), (count : Int)]
  | arrayOf typeCode => [(typeCode : Int)]
  | multiArray index dimensions => [(index : Int), (dimensions : Int)]
  | tableSwitch default low high jumps => default :: low :: high :: jumps
  | lookupSwitch default count cases =>
    default :: count :: cases.flatMap fun (value, jump) ↦ [value, jump]
  | wideLocal target index => [target.opcode, (index : Int)]
  | wideIncrement target index amount => [target.opcode, (index : Int), amount]
  | wideUnknown opcode => [(opcode : Int)]

/-- The entry of the constant pool that the instruction refers to. -/
def poolIndex? : Operands → Option Nat
  | constant index | interfaceCall index _ | multiArray index _ => some index
  | _ => Option.none

end Operands

end Bytecode
