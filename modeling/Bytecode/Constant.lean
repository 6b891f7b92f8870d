import Bytecode.Text

/-!
# Constants

The entries of a constant pool.  Constants refer to each other by index; nothing here says that
there is a constant of the right kind at an index.
-/

namespace Bytecode

/-- The kinds of constants. -/
inductive Kind where
  | utf8
  | integer
  | float
  | long
  | double
  | classInfo
  | string
  | fieldref
  | methodref
  | interfaceMethodref
  | nameAndType
  | methodHandle
  | methodType
  | dynamic
  | invokeDynamic
  | moduleInfo
  | packageInfo
deriving DecidableEq, Repr

namespace Kind

def name : Kind → String
  | .utf8 => "Utf8"
  | .integer => "Integer"
  | .float => "Float"
  | .long => "Long"
  | .double => "Double"
  | .classInfo => "Class"
  | .string => "String"
  | .fieldref => "Fieldref"
  | .methodref => "Methodref"
  | .interfaceMethodref => "InterfaceMethodref"
  | .nameAndType => "NameAndType"
  | .methodHandle => "MethodHandle"
  | .methodType => "MethodType"
  | .dynamic => "Dynamic"
  | .invokeDynamic => "InvokeDynamic"
  | .moduleInfo => "Module"
  | .packageInfo => "Package"

/-- The byte that announces a constant of this kind in a class file. -/
def tag : Kind → Nat
  | .utf8 => 1
  | .integer => 3
  | .float => 4
  | .long => 5
  | .double => 6
  | .classInfo => 7
  | .string => 8
  | .fieldref => 9
  | .methodref => 10
  | .interfaceMethodref => 11
  | .nameAndType => 12
  | .methodHandle => 15
  | .methodType => 16
  | .dynamic => 17
  | .invokeDynamic => 18
  | .moduleInfo => 19
  | .packageInfo => 20

def all : List Kind :=
  [.utf8, .integer, .float, .long, .double, .classInfo, .string, .fieldref, .methodref,
    .interfaceMethodref, .nameAndType, .methodHandle, .methodType, .dynamic, .invokeDynamic,
    .moduleInfo, .packageInfo]

/-- The kind that a tag announces. -/
def ofTag? (tag : Nat) : Option Kind := all.find? (·.tag = tag)

theorem mem_all (k : Kind) : k ∈ all := by cases k <;> decide

theorem ofTag?_tag (k : Kind) : ofTag? k.tag = some k := by cases k <;> decide

end Kind

/-- Constants that only name something. -/
inductive NamedKind where
  | classInfo
  | moduleInfo
  | packageInfo
deriving DecidableEq, Repr

def NamedKind.kind : NamedKind → Kind
  | .classInfo => .classInfo
  | .moduleInfo => .moduleInfo
  | .packageInfo => .packageInfo

/-- Constants that refer to a member of a class. -/
inductive MemberKind where
  | fieldref
  | methodref
  | interfaceMethodref
deriving DecidableEq, Repr

def MemberKind.kind : MemberKind → Kind
  | .fieldref => .fieldref
  | .methodref => .methodref
  | .interfaceMethodref => .interfaceMethodref

/-- Constants that are computed by a bootstrap method. -/
inductive DynamicKind where
  | dynamic
  | invokeDynamic
deriving DecidableEq, Repr

def DynamicKind.kind : DynamicKind → Kind
  | .dynamic => .dynamic
  | .invokeDynamic => .invokeDynamic

/-- A constant.  Floating-point numbers are held as their bits. -/
inductive Constant where
  | utf8 (value : Text)
  | integer (value : Int)
  | float (bits : UInt32)
  | long (value : Int)
  | double (bits : UInt64)
  | named (kind : NamedKind) (name : Int)
  | string (value : Int)
  | member (kind : MemberKind) (owner nameAndType : Int)
  | nameAndType (name descriptor : Int)
  | methodHandle (kind reference : Int)
  | methodType (descriptor : Int)
  | dynamic (kind : DynamicKind) (bootstrap nameAndType : Int)
deriving DecidableEq, Repr

namespace Constant

def kind : Constant → Kind
  | .utf8 _ => .utf8
  | .integer _ => .integer
  | .float _ => .float
  | .long _ => .long
  | .double _ => .double
  | .named k _ => k.kind
  | .string _ => .string
  | .member k _ _ => k.kind
  | .nameAndType _ _ => .nameAndType
  | .methodHandle _ _ => .methodHandle
  | .methodType _ => .methodType
  | .dynamic k _ _ => k.kind

/-- The number of indices that a constant takes up in a pool. -/
def slots : Constant → Nat
  | .long _ | .double _ => 2
  | _ => 1

theorem slots_pos (c : Constant) : 0 < c.slots := by cases c <;> simp [slots]

end Constant

end Bytecode
