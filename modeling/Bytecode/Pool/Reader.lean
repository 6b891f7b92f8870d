import Bytecode.FormatError
import Bytecode.Text.ModifiedUtf8

/-!
# Reading the constant pool

A count, then one tagged constant after another until the indices below the count are used up.  A
long or double takes up two indices, of which the second stays empty.
-/

namespace Bytecode

open Reader

/-- A two-byte index of the constant pool. -/
def readIndex {ε : Type} : Reader ε Int := do
  let index ← u2
  pure (index : Int)

namespace Constant

def readNamed (kind : NamedKind) : FormatReader Constant := do
  let name ← readIndex
  pure (.named kind name)

def readMember (kind : MemberKind) : FormatReader Constant := do
  let owner ← readIndex
  let nameAndType ← readIndex
  pure (.member kind owner nameAndType)

def readDynamic (kind : DynamicKind) : FormatReader Constant := do
  let bootstrap ← readIndex
  let nameAndType ← readIndex
  pure (.dynamic kind bootstrap nameAndType)

/-- A constant of a given kind, after its tag. -/
def read : Kind → FormatReader Constant
  | .utf8 => do
    let content ← bytes u2
    pure (.utf8 (ModifiedUtf8.decode content))
  | .integer => do
    let value ← s4
    pure (.integer value)
  | .float => do
    let bits ← Reader.float
    pure (.float bits)
  | .long => do
    let value ← s8
    pure (.long value)
  | .double => do
    let bits ← Reader.double
    pure (.double bits)
  | .classInfo => readNamed .classInfo
  | .string => do
    let value ← readIndex
    pure (.string value)
  | .fieldref => readMember .fieldref
  | .methodref => readMember .methodref
  | .interfaceMethodref => readMember .interfaceMethodref
  | .nameAndType => do
    let name ← readIndex
    let descriptor ← readIndex
    pure (.nameAndType name descriptor)
  | .methodHandle => do
    let kind ← u1
    let reference ← readIndex
    pure (.methodHandle kind reference)
  | .methodType => do
    let descriptor ← readIndex
    pure (.methodType descriptor)
  | .dynamic => readDynamic .dynamic
  | .invokeDynamic => readDynamic .invokeDynamic
  | .moduleInfo => readNamed .moduleInfo
  | .packageInfo => readNamed .packageInfo

/-- A tag and the constant that it announces. -/
def readTagged : FormatReader Constant := do
  let tag ← u1
  match Kind.ofTag? tag with
  | some kind => read kind
  | none => fail (.unknownTag tag)

end Constant

namespace Pool

/-- Fills a pool from `index` on.  `length` is what the constants before it took up. -/
def readFrom (index : Nat) (p : Pool) (length : Nat) (w : Window) :
    Except FormatFault (Pool × Nat) :=
  if index < p.count then
    match Constant.readTagged w with
    | .error e => .error e
    | .ok (c, n) => readFrom (index + c.slots) (p.set index c) (length + n) (w.drop n)
  else .ok (p, length)
termination_by p.count - index
decreasing_by
  have := c.slots_pos
  simp only [count_set]
  omega

/-- Reads a constant pool. -/
def read : FormatReader Pool := do
  let count ← u2
  readFrom 1 (empty count) 0

end Pool

end Bytecode
