import Bytecode.Constant
import Bytecode.Decimal.Layout
import Bytecode.Text.Quoted

/-!
# The constant pool

A pool has a fixed number of indices, of which the first, zero, is never used.  A constant can be
stored at any integer, but only those at the indices of the pool are found again.  Any integer may
be asked for and anything may stand behind an index, so every access can fail.  `Pool.describe` puts
a constant into words and never fails: a broken reference is part of the description.
-/

namespace Bytecode

/-- The constants of a class by index. -/
structure Pool where
  /-- What is stored at zero and at the indices of the pool. -/
  slots : Array (Option Constant)
  /-- What is stored elsewhere, the latest first. -/
  outside : List (Int × Constant) := []
deriving DecidableEq, Repr

/-- Why a constant cannot be used. -/
inductive PoolError where
  | noConstant (index : Int)
  | wrongKind (expected : List Kind) (index : Int) (found : Kind)
deriving DecidableEq, Repr

def PoolError.message : PoolError → Text
  | .noConstant index => "No constant at index " ++ Text.ofInt index
  | .wrongKind expected index found =>
    "Expected " ++ Text.join " or " (expected.map fun k ↦ Text.ofString k.name) ++ " at index " ++
      Text.ofInt index ++ ", found " ++ Text.ofString found.name

namespace Pool

/-- A pool without constants. -/
def empty (count : Nat) : Pool where
  slots := Array.replicate count none

/-- One more than the greatest index. -/
def count (p : Pool) : Nat := p.slots.size

/-- Stores a constant at an integer, whether or not it is an index of the pool. -/
def set (p : Pool) (index : Int) (c : Constant) : Pool :=
  if 0 ≤ index ∧ index < p.count then
    { p with slots := p.slots.setIfInBounds index.toNat (some c) }
  else { p with outside := (index, c) :: p.outside }

/-- What is stored at an integer. -/
def stored? (p : Pool) (index : Int) : Option Constant :=
  if 0 ≤ index ∧ index < p.count then (p.slots[index.toNat]?).join
  else p.outside.lookup index

/-- The constant at an index, if there is one.  What is stored outside the pool does not count. -/
def get? (p : Pool) (index : Int) : Option Constant :=
  if 0 < index ∧ index < p.count then p.stored? index else none

/-- The constant at an index. -/
def get (p : Pool) (index : Int) : Except PoolError Constant :=
  match p.get? index with
  | some c => .ok c
  | none => .error (.noConstant index)

@[simp] theorem count_empty (n : Nat) : (empty n).count = n := by simp [empty, count]

@[simp] theorem count_set (p : Pool) (index : Int) (c : Constant) :
    (p.set index c).count = p.count := by
  rw [set]
  split <;> simp [count]

/-! ## Resolving references -/

/-- The text at an index. -/
def utf8 (p : Pool) (index : Int) : Except PoolError Text := do
  match ← p.get index with
  | .utf8 value => .ok value
  | c => .error (.wrongKind [.utf8] index c.kind)

/-- The name of the class at an index. -/
def className (p : Pool) (index : Int) : Except PoolError Text := do
  match ← p.get index with
  | .named .classInfo name => p.utf8 name
  | c => .error (.wrongKind [.classInfo] index c.kind)

/-- The name and the descriptor at an index, with a colon between them. -/
def nameAndType (p : Pool) (index : Int) : Except PoolError Text := do
  match ← p.get index with
  | .nameAndType name descriptor =>
    let name ← p.utf8 name
    let descriptor ← p.utf8 descriptor
    .ok (name ++ ":" ++ descriptor)
  | c => .error (.wrongKind [.nameAndType] index c.kind)

/-- The member at an index: its class, a point, its name and its descriptor. -/
def member (p : Pool) (index : Int) : Except PoolError Text := do
  match ← p.get index with
  | .member _ owner nameAndType =>
    let owner ← p.className owner
    let nameAndType ← p.nameAndType nameAndType
    .ok (owner ++ "." ++ nameAndType)
  | c => .error (.wrongKind [.fieldref, .methodref, .interfaceMethodref] index c.kind)

/-! ## Descriptions -/

/-- What a method handle does with the member that it refers to. -/
def handleName (kind : Int) : Text :=
  match kind with
  | 1 => "REF_getField"
  | 2 => "REF_getStatic"
  | 3 => "REF_putField"
  | 4 => "REF_putStatic"
  | 5 => "REF_invokeVirtual"
  | 6 => "REF_invokeStatic"
  | 7 => "REF_invokeSpecial"
  | 8 => "REF_newInvokeSpecial"
  | 9 => "REF_invokeInterface"
  | _ => "REF_" ++ Text.ofInt kind

/-- A constant in words, with everything that it refers to. -/
def describeConstant (p : Pool) (index : Int) : Except PoolError Text := do
  match ← p.get index with
  | .utf8 value => .ok value
  | .integer value => .ok (Text.ofInt value)
  | .float bits => .ok (Decimal.Layout.description.single bits)
  | .long value => .ok (Text.ofInt value)
  | .double bits => .ok (Decimal.Layout.description.double bits)
  | .named _ name => p.utf8 name
  | .string value => return (← p.utf8 value).quote
  | .member _ _ _ => p.member index
  | .nameAndType _ _ => p.nameAndType index
  | .methodHandle kind reference => return handleName kind ++ " " ++ (← p.member reference)
  | .methodType descriptor => p.utf8 descriptor
  | .dynamic _ bootstrap nameAndType =>
    return "#" ++ Text.ofInt bootstrap ++ ":" ++ (← p.nameAndType nameAndType)

/-- The constant at an index in words, or what is wrong with it. -/
def describe (p : Pool) (index : Int) : Text :=
  match p.describeConstant index with
  | .ok description => description
  | .error e => "[Invalid constant pool reference: " ++ e.message ++ "]"

/-- The indices that hold a constant, in ascending order. -/
def indices (p : Pool) : List Nat := (List.range p.count).filter fun i ↦ (p.get? i).isSome

end Pool

end Bytecode
