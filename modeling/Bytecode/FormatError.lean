import Bytecode.Descriptor
import Bytecode.Pool
import Bytecode.Reader

/-!
# Format errors

The rules of the class file format that a file can break.
-/

namespace Bytecode

/-- A rule that a class file breaks. -/
inductive FormatError where
  /-- The file does not start with the four bytes that every class file starts with. -/
  | badMagic
  /-- No constant is announced by this tag. -/
  | unknownTag (tag : Nat)
  | pool (error : PoolError)
  | descriptor (error : Descriptor.Error)
deriving DecidableEq, Repr

def FormatError.message : FormatError → Text
  | .badMagic => "Invalid magic bytes"
  | .unknownTag tag => "Unknown constant pool type: " ++ Text.ofNat tag
  | .pool e => e.message
  | .descriptor e => e.message

/-- Why a class file cannot be read. -/
abbrev FormatFault := Fault FormatError

/-- The message about a fault of a class file. -/
def FormatFault.message : FormatFault → Text
  | .truncated s => s.message
  | .invalid e => e.message

/-- A reader of a part of a class file. -/
abbrev FormatReader := Reader FormatError

/-- A constant that has to be there. -/
def FormatReader.resolve {α : Type} : Except PoolError α → FormatReader α
  | .ok a => pure a
  | .error e => Reader.fail (.pool e)

end Bytecode
