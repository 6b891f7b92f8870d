import Bytecode.Text

/-!
# The instruction catalog

Every instruction has a one-byte opcode, a mnemonic and a shape, which says how its operands are laid
out.  A catalog is loaded from a table of rows; a row with an unknown shape and a row that repeats an
opcode are refused.
-/

namespace Bytecode

/-- How the operands of an instruction are laid out. -/
inductive Shape where
  | none
  | u8
  | u16
  | s16
  | s32
  | localIndexAndConst
  | constantPoolU8
  | constantPoolU16
  | invokeInterface
  | invokeDynamic
  | newArrayPrimitive
  | multiArray
  | tableSwitch
  | lookupSwitch
  | widePrefixed
deriving DecidableEq, Repr

namespace Shape

/-- The shapes in the order in which they are documented. -/
def all : List Shape :=
  [.none, .u8, .u16, .s16, .s32, .localIndexAndConst, .constantPoolU8, .constantPoolU16,
    .invokeInterface, .invokeDynamic, .newArrayPrimitive, .multiArray, .tableSwitch, .lookupSwitch,
    .widePrefixed]

/-- The name of a shape in a table. -/
def name : Shape → String
  | .none => "none"
  | .u8 => "u8"
  | .u16 => "u16"
  | .s16 => "s16"
  | .s32 => "s32"
  | .localIndexAndConst => "local-index-and-const"
  | .constantPoolU8 => "constant-pool-u8"
  | .constantPoolU16 => "constant-pool-u16"
  | .invokeInterface => "invoke-interface"
  | .invokeDynamic => "invoke-dynamic"
  | .newArrayPrimitive => "new-array-primitive"
  | .multiArray => "multi-array"
  | .tableSwitch => "table-switch"
  | .lookupSwitch => "lookup-switch"
  | .widePrefixed => "wide-prefixed"

/-- The shape with a given name. -/
def ofName? (s : String) : Option Shape := all.find? (·.name = s)

theorem mem_all (s : Shape) : s ∈ all := by cases s <;> decide

theorem ofName?_name (s : Shape) : ofName? s.name = some s := by cases s <;> decide

end Shape

/-- An instruction of the catalog. -/
structure Entry where
  opcode : Int
  mnemonic : String
  shape : Shape
  reserved : Bool
deriving DecidableEq, Repr

namespace Entry

/-- Marks the mnemonics that no class file may use. -/
def reservedMark : String := "[Reserved] "

/-- The mnemonic as it is shown in a listing. -/
def display (e : Entry) : Text :=
  if e.reserved then reservedMark ++ Text.ofString e.mnemonic else Text.ofString e.mnemonic

end Entry

/-- A row of the table that a catalog is loaded from. -/
structure Row where
  opcode : Int
  mnemonic : String
  shape : String
  reserved : Bool
deriving DecidableEq, Repr

/-- Why a table cannot be loaded, or a mnemonic not be found. -/
inductive CatalogError where
  | unknownShape (mnemonic shape : String)
  | duplicateOpcode (opcode : Int)
  | unknownMnemonic (mnemonic : String)
deriving DecidableEq, Repr

def CatalogError.message : CatalogError → Text
  | .unknownShape mnemonic shape =>
    "Unknown operand shape for " ++ Text.ofString mnemonic ++ ": " ++ Text.ofString shape
  | .duplicateOpcode opcode => "Duplicate opcode: " ++ Text.ofInt opcode
  | .unknownMnemonic mnemonic => "Unknown mnemonic: " ++ Text.ofString mnemonic

/-- The known instructions, in the order of the table. -/
structure Catalog where
  entries : List Entry
deriving DecidableEq, Repr

namespace Catalog

/-- The instruction with a given opcode. -/
def lookup (c : Catalog) (opcode : Int) : Option Entry := c.entries.find? (·.opcode = opcode)

/-- The first instruction with a given mnemonic. -/
def named? (c : Catalog) (mnemonic : String) : Option Entry :=
  c.entries.find? (·.mnemonic = mnemonic)

/-- The opcode of the first instruction with a given mnemonic. -/
def opcodeOf (c : Catalog) (mnemonic : String) : Except CatalogError Int :=
  match c.named? mnemonic with
  | some e => .ok e.opcode
  | none => .error (.unknownMnemonic mnemonic)

/-- Adds the instruction of one row. -/
def add (c : Catalog) (r : Row) : Except CatalogError Catalog :=
  match Shape.ofName? r.shape with
  | none => .error (.unknownShape r.mnemonic r.shape)
  | some shape =>
    match c.lookup r.opcode with
    | some _ => .error (.duplicateOpcode r.opcode)
    | none => .ok ⟨c.entries ++ [⟨r.opcode, r.mnemonic, shape, r.reserved⟩]⟩

/-- The catalog of a table.  The first row that cannot be added is reported. -/
def load (rows : List Row) : Except CatalogError Catalog := rows.foldlM add ⟨[]⟩

end Catalog

end Bytecode
