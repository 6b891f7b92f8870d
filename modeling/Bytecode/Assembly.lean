import Bytecode.Catalog.Standard
import Bytecode.Operands
import Bytecode.Word

/-!
# Assembly

Instructions by mnemonic, with their operands as plain numbers, are written as a code array.  The
number of operands is checked where the shape fixes it; every operand has to fit its field.
-/

namespace Bytecode.Assembly

/-- An instruction to be assembled. -/
structure Statement where
  mnemonic : String
  operands : List Int
deriving DecidableEq, Repr

/-- Why an instruction cannot be assembled. -/
inductive Error where
  | catalog (error : CatalogError)
  | operandCount (mnemonic : String) (expected actual : Nat)
  | wideWithoutOpcode
  | wideIncrementWithoutConstant
  /-- An operand does not fit its field. -/
  | outOfRange
deriving DecidableEq, Repr

def Error.message : Error → Text
  | .catalog e => e.message
  | .operandCount mnemonic expected actual =>
    Text.ofString mnemonic ++ " takes " ++ Text.ofNat expected ++
      (if expected = 1 then " operand" else " operands") ++ ", got " ++ Text.ofNat actual
  | .wideWithoutOpcode => "wide needs an inner opcode"
  | .wideIncrementWithoutConstant => "wide iinc needs a constant"
  | .outOfRange => "operand out of range"

/-- A field for one operand: its width in bytes and whether it holds negative numbers. -/
inductive Field where
  | u1
  | s1
  | u2
  | s2
  | s4
deriving DecidableEq, Repr

namespace Field

def width : Field → Nat
  | .u1 | .s1 => 1
  | .u2 | .s2 => 2
  | .s4 => 4

/-- The least number that fits. -/
def least : Field → Int
  | .u1 | .u2 => 0
  | .s1 => -0x80
  | .s2 => -0x8000
  | .s4 => -0x80000000

/-- The greatest number that fits. -/
def greatest : Field → Int
  | .u1 => 0xFF
  | .s1 => 0x7F
  | .u2 => 0xFFFF
  | .s2 => 0x7FFF
  | .s4 => 0x7FFFFFFF

/-- The bytes of a number that fits. -/
def write (f : Field) (value : Int) : Except Error (List UInt8) :=
  if f.least ≤ value ∧ value ≤ f.greatest then .ok (Word.bytes f.width (Word.ofSigned f.width value))
  else .error .outOfRange

end Field

/-- The fields of a shape whose operands have a fixed number. -/
def fields? : Shape → Option (List Field)
  | .none => some []
  | .u8 | .constantPoolU8 | .newArrayPrimitive => some [.u1]
  | .u16 | .constantPoolU16 | .invokeDynamic => some [.u2]
  | .s16 => some [.s2]
  | .s32 => some [.s4]
  | .localIndexAndConst => some [.u1, .s1]
  | .invokeInterface | .multiArray => some [.u2, .u1]
  | .tableSwitch | .lookupSwitch | .widePrefixed => none

/-- The zero bytes that follow the fields of a shape. -/
def trailer : Shape → List UInt8
  | .invokeInterface => [0]
  | .invokeDynamic => [0, 0]
  | _ => []

/-- Writes each operand into its field. -/
def writeFields : List Field → List Int → Except Error (List UInt8)
  | f :: fs, v :: vs => do
    let first ← f.write v
    let rest ← writeFields fs vs
    .ok (first ++ rest)
  | _, _ => .ok []

/-- A switch table: padding up to a multiple of four and every operand in four bytes. -/
def writeSwitch (position : Nat) (operands : List Int) : Except Error (List UInt8) := do
  let table ← writeFields (List.replicate operands.length .s4) operands
  .ok (List.replicate (padding position) 0 ++ table)

/-- What follows a wide prefix.  The operands of the widened instruction may be left out, and an
opcode without an entry in the catalog takes none. -/
def writeWide : List Int → Except Error (List UInt8)
  | [] => .error .wideWithoutOpcode
  | opcode :: operands => do
    let prefixed ← Field.u1.write opcode
    match Catalog.standard.lookup opcode, operands with
    | some target, index :: more =>
      let indexBytes ← Field.u2.write index
      if target.mnemonic = "iinc" then
        match more with
        | [] => .error .wideIncrementWithoutConstant
        | amount :: _ =>
          let amountBytes ← Field.s2.write amount
          .ok (prefixed ++ indexBytes ++ amountBytes)
      else .ok (prefixed ++ indexBytes)
    | _, _ => .ok prefixed

/-- The operands of an instruction of the given shape, which start at `position`. -/
def writeOperands (position : Nat) (mnemonic : String) (operands : List Int) (shape : Shape) :
    Except Error (List UInt8) :=
  match fields? shape with
  | some fields => do
    if operands.length ≠ fields.length then
      .error (.operandCount mnemonic fields.length operands.length)
    else
      let bytes ← writeFields fields operands
      .ok (bytes ++ trailer shape)
  | none =>
    if shape = .widePrefixed then writeWide operands else writeSwitch position operands

namespace Statement

/-- The bytes of an instruction at `position`. -/
def write (position : Nat) (s : Statement) : Except Error (List UInt8) := do
  match Catalog.standard.named? s.mnemonic with
  | none => .error (.catalog (.unknownMnemonic s.mnemonic))
  | some e =>
    let operands ← writeOperands (position + 1) s.mnemonic s.operands e.shape
    .ok (e.opcode.toNat.toUInt8 :: operands)

end Statement

/-- Assembles on from `position`. -/
def assembleFrom (position : Nat) : List Statement → Except Error (List UInt8)
  | [] => .ok []
  | s :: rest => do
    let first ← s.write position
    let bytes ← assembleFrom (position + first.length) rest
    .ok (first ++ bytes)

/-- The code array of a sequence of instructions. -/
def assemble (statements : List Statement) : Except Error (List UInt8) := assembleFrom 0 statements

end Bytecode.Assembly
