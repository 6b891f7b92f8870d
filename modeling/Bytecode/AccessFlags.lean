import Bytecode.Reader

/-!
# Access flags

Classes, fields and methods carry a set of flags in two bytes.  The same bit can mean different
things on each of them.
-/

namespace Bytecode

/-- A flag: its name and its bit. -/
structure Flag where
  name : String
  mask : Nat
deriving DecidableEq, Repr

/-- What carries a set of flags. -/
inductive FlagOwner where
  | ofClass
  | ofField
  | ofMethod
deriving DecidableEq, Repr

/-- The flags of a class, field or method, in the order in which source code declares modifiers. -/
def FlagOwner.flags : FlagOwner → List Flag
  | .ofClass =>
    [⟨"public", 0x0001⟩, ⟨"final", 0x0010⟩, ⟨"super", 0x0020⟩, ⟨"interface", 0x0200⟩,
      ⟨"abstract", 0x0400⟩, ⟨"synthetic", 0x1000⟩, ⟨"annotation", 0x2000⟩, ⟨"enum", 0x4000⟩,
      ⟨"module", 0x8000⟩]
  | .ofField =>
    [⟨"public", 0x0001⟩, ⟨"private", 0x0002⟩, ⟨"protected", 0x0004⟩, ⟨"static", 0x0008⟩,
      ⟨"final", 0x0010⟩, ⟨"volatile", 0x0040⟩, ⟨"transient", 0x0080⟩, ⟨"synthetic", 0x1000⟩,
      ⟨"enum", 0x4000⟩]
  | .ofMethod =>
    [⟨"public", 0x0001⟩, ⟨"private", 0x0002⟩, ⟨"protected", 0x0004⟩, ⟨"static", 0x0008⟩,
      ⟨"final", 0x0010⟩, ⟨"synchronized", 0x0020⟩, ⟨"bridge", 0x0040⟩, ⟨"varargs", 0x0080⟩,
      ⟨"native", 0x0100⟩, ⟨"abstract", 0x0400⟩, ⟨"strict", 0x0800⟩, ⟨"synthetic", 0x1000⟩]

/-- A set of flags: the number that stands for it and the names that are known. -/
structure AccessFlags where
  value : Nat
  names : List String
deriving DecidableEq, Repr

namespace AccessFlags

/-- The flags whose bits are set. -/
def ofValue (owner : FlagOwner) (value : Nat) : AccessFlags where
  value := value
  names := (owner.flags.filter fun f ↦ value &&& f.mask ≠ 0).map (·.name)

/-- Whether a flag is set. -/
def has (f : AccessFlags) (name : String) : Bool := name ∈ f.names

/-- Reads the two bytes of a set of flags. -/
def read {ε : Type} (owner : FlagOwner) : Reader ε AccessFlags := do
  let value ← Reader.u2
  pure (ofValue owner value)

end AccessFlags

end Bytecode
