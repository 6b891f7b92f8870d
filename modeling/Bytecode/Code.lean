import Bytecode.Operands.Reader

/-!
# Code arrays

A code array is decoded from the front, one instruction after another.  A byte that is no opcode
becomes an instruction of length one, and decoding resumes with the next byte or stops there, as the
caller asks.  Decoding also stops where an instruction is cut short by the end of the array.
-/

namespace Bytecode

/-- An instruction of a code array. -/
structure Instruction where
  /-- Where the opcode stands in the code array. -/
  offset : Nat
  opcode : UInt8
  operands : Operands
  /-- The number of bytes from the opcode to the last operand, padding included. -/
  length : Nat
deriving DecidableEq, Repr

namespace Instruction

/-- What the catalog says about the instruction. -/
def entry? (i : Instruction) : Option Entry := Catalog.standard.lookup i.opcode.toNat

/-- The mnemonic with the operands, or the mark of an unknown opcode. -/
def text (i : Instruction) : Text :=
  match i.entry? with
  | some e => i.operands.text e.display
  | none => Operands.unknownOpcode

/-- The operands as plain numbers. -/
def values (i : Instruction) : List Int := i.operands.values

/-- The entry of the constant pool that the instruction refers to. -/
def poolIndex? (i : Instruction) : Option Nat := i.operands.poolIndex?

/-- The operands that follow an opcode. -/
def readOperands (position : Nat) (opcode : UInt8) : Reader Empty Operands :=
  match Catalog.standard.lookup opcode.toNat with
  | some e => Operands.read position e.shape
  | none => pure .none

end Instruction

namespace Code

/-- What to do about a byte that is no opcode. -/
inductive Policy where
  /-- Go on with the next byte. -/
  | resume
  /-- Stop after it. -/
  | abort
deriving DecidableEq, Repr

/-- Why decoding stopped. -/
inductive Cause where
  | truncated (shortfall : Shortfall)
  | unknownOpcode (opcode : Nat)
deriving DecidableEq, Repr

def Cause.message : Cause → Text
  | .truncated s => s.message
  | .unknownOpcode opcode => "Unknown opcode: 0x" ++ Text.hex opcode

/-- Where and why decoding stopped. -/
structure Failure where
  offset : Nat
  cause : Cause
deriving DecidableEq, Repr

/-- The warning about a failure in a code array of `size` bytes. -/
def Failure.warning (f : Failure) (size : Nat) : Text :=
  "Decoding stopped at offset " ++ Text.ofNat f.offset ++ " of " ++ Text.ofNat size ++
    "-byte code: " ++ f.cause.message

/-- The instructions of a code array, and the failure that ended it early. -/
structure Decoded where
  instructions : List Instruction
  failure : Option Failure
deriving DecidableEq, Repr

/-- Puts an instruction in front. -/
def Decoded.cons (i : Instruction) (d : Decoded) : Decoded :=
  { d with instructions := i :: d.instructions }

/-- Decodes `rest`, which stands at `offset` in the code array. -/
def decodeFrom (policy : Policy) (offset : Nat) (rest : Window) : Decoded :=
  match _h : rest.next? with
  | none => ⟨[], none⟩
  | some (opcode, operandBytes) =>
    match Instruction.readOperands (offset + 1) opcode operandBytes with
    | .error fault => ⟨[], some ⟨offset, .truncated fault.shortfall⟩⟩
    | .ok (operands, n) =>
      let i : Instruction := ⟨offset, opcode, operands, n + 1⟩
      if policy = .abort ∧ i.entry? = none then
        ⟨[i], some ⟨offset, .unknownOpcode opcode.toNat⟩⟩
      else (decodeFrom policy (offset + i.length) (operandBytes.drop n)).cons i
termination_by rest.size
decreasing_by
  have := Window.size_lt_of_next? _h
  simp only [Window.size_drop]
  omega

/-- Decodes a code array. -/
def decode (policy : Policy) (code : Window) : Decoded := decodeFrom policy 0 code

/-- The instructions of a code array, and the warning about the failure if there is one. -/
def decodeWarning (policy : Policy) (code : Window) : List Instruction × Option Text :=
  let d := decode policy code
  (d.instructions, d.failure.map (·.warning code.size))

end Code

end Bytecode
