import Bytecode.Catalog.Standard
import Bytecode.Operands
import Bytecode.Reader

/-!
# Reading operands

How the operands of each shape are read.  Only the tables of the two switches depend on where they
stand: they start at a multiple of four, counted from the start of the code array.
-/

namespace Bytecode.Operands

open Reader

/-- Passes over the bytes before the next multiple of four.  If they are missing, the shortfall
counts from the start of the code array. -/
def align (position : Nat) : Reader Empty Unit := fun w ↦
  if padding position ≤ w.size then .ok ((), padding position)
  else .error (.truncated ⟨position + padding position, position + w.size⟩)

/-- `n` values of `width` bytes each.  All their bytes have to be there before the first is read. -/
def entries {α : Type} (width n : Nat) (p : Reader Empty α) : Reader Empty (List α) := do
  require (width * n)
  times n p

/-- The table of a switch over a range of numbers. -/
def readTableSwitch (position : Nat) : Reader Empty Operands := do
  align position
  let default ← s4
  let low ← s4
  let high ← s4
  let jumps ← entries 4 (high - low + 1).toNat s4
  pure (.tableSwitch default low high jumps)

/-- A number and the jump that belongs to it. -/
def readCase : Reader Empty (Int × Int) := do
  let value ← s4
  let jump ← s4
  pure (value, jump)

/-- The table of a switch over listed numbers. -/
def readLookupSwitch (position : Nat) : Reader Empty Operands := do
  align position
  let default ← s4
  let count ← s4
  let cases ← entries 8 count.toNat readCase
  pure (.lookupSwitch default count cases)

/-- The instruction after a wide prefix.  Of one that cannot be widened only the opcode is read. -/
def readWide : Reader Empty Operands := do
  let opcode ← u1
  match Catalog.standard.lookup opcode with
  | Option.none => pure (.wideUnknown opcode)
  | some target =>
    match target.widening with
    | .localIndex =>
      let index ← u2
      pure (.wideLocal target index)
    | .increment =>
      let index ← u2
      let amount ← s2
      pure (.wideIncrement target index amount)
    | .unsupported => pure (.wideUnknown opcode)

/-- The operands of an instruction of the given shape.  `position` is where they start, counted from
the start of the code array. -/
def read (position : Nat) : Shape → Reader Empty Operands
  | .none => pure .none
  | .u8 => do
    let value ← u1
    pure (.immediate value)
  | .u16 => do
    let value ← u2
    pure (.immediate value)
  | .s16 => do
    let value ← s2
    pure (.immediate value)
  | .s32 => do
    let value ← s4
    pure (.immediate value)
  | .localIndexAndConst => do
    let index ← u1
    let amount ← s1
    pure (.increment index amount)
  | .constantPoolU8 => do
    let index ← u1
    pure (.constant index)
  | .constantPoolU16 => do
    let index ← u2
    pure (.constant index)
  | .invokeInterface => do
    let index ← u2
    let count ← u1
    skip 1
    pure (.interfaceCall index count)
  | .invokeDynamic => do
    let index ← u2
    skip 2
    pure (.constant index)
  | .newArrayPrimitive => do
    let typeCode ← u1
    pure (.arrayOf typeCode)
  | .multiArray => do
    let index ← u2
    let dimensions ← u1
    pure (.multiArray index dimensions)
  | .tableSwitch => readTableSwitch position
  | .lookupSwitch => readLookupSwitch position
  | .widePrefixed => readWide

end Bytecode.Operands
