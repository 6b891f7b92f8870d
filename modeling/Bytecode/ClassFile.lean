import Bytecode.AccessFlags
import Bytecode.Pool.Reader

/-!
# Class files

The parts of a class file and how they are read.  Names and descriptors are looked up in the constant
pool once the bytes of the part they belong to have been read; the names of the class, its superclass
and its interfaces come last of all.
-/

namespace Bytecode

open Reader FormatReader

/-! ## Attributes -/

/-- A named stretch of bytes. -/
structure Attribute where
  name : Text
  info : List UInt8
deriving DecidableEq, Repr

namespace Attribute

def read (pool : Pool) : FormatReader Attribute := do
  let name ← readIndex
  let info ← bytes u4
  let name ← resolve (pool.utf8 name)
  pure ⟨name, info⟩

/-- The attributes of a class, a member or code. -/
def readAll (pool : Pool) : FormatReader (List Attribute) := repeated (read pool)

/-- The first attribute with a given name. -/
def find? (attributes : List Attribute) (name : Text) : Option Attribute :=
  List.find? (fun a ↦ a.name = name) attributes

end Attribute

/-! ## Members -/

/-- A field or method. -/
structure Member where
  accessFlags : AccessFlags
  name : Text
  descriptor : Text
  attributes : List Attribute
deriving DecidableEq, Repr

namespace Member

def read (owner : FlagOwner) (pool : Pool) : FormatReader Member := do
  let accessFlags ← AccessFlags.read owner
  let name ← readIndex
  let descriptor ← readIndex
  let attributes ← Attribute.readAll pool
  let name ← resolve (pool.utf8 name)
  let descriptor ← resolve (pool.utf8 descriptor)
  pure ⟨accessFlags, name, descriptor, attributes⟩

/-- The fields or the methods of a class. -/
def readAll (owner : FlagOwner) (pool : Pool) : FormatReader (List Member) :=
  repeated (read owner pool)

end Member

/-! ## Code attributes -/

/-- A range of a code array with the handler of its exceptions. -/
structure Handler where
  startPC : Nat
  endPC : Nat
  handlerPC : Nat
  /-- The class of the exceptions, or zero if all of them are handled. -/
  catchType : Nat
deriving DecidableEq, Repr

namespace Handler

def read : FormatReader Handler := do
  let startPC ← u2
  let endPC ← u2
  let handlerPC ← u2
  let catchType ← u2
  pure ⟨startPC, endPC, handlerPC, catchType⟩

/-- An exception table. -/
def readAll : FormatReader (List Handler) := repeated read

end Handler

/-- What the code attribute of a method holds. -/
structure CodeAttribute where
  maxStack : Nat
  maxLocals : Nat
  code : List UInt8
  handlers : List Handler
  attributes : List Attribute
deriving DecidableEq, Repr

namespace CodeAttribute

/-- The name of the attribute. -/
def name : String := "Code"

def read (pool : Pool) : FormatReader CodeAttribute := do
  let maxStack ← u2
  let maxLocals ← u2
  let code ← bytes u4
  let handlers ← Handler.readAll
  let attributes ← Attribute.readAll pool
  pure ⟨maxStack, maxLocals, code, handlers, attributes⟩

end CodeAttribute

/-! ## Classes -/

/-- A class. -/
structure ClassFile where
  minorVersion : Nat
  majorVersion : Nat
  pool : Pool
  accessFlags : AccessFlags
  thisClass : Text
  /-- Absent where the index of the superclass is zero. -/
  superClass : Option Text
  interfaces : List Text
  fields : List Member
  methods : List Member
  attributes : List Attribute
deriving DecidableEq, Repr

namespace ClassFile

/-- The number that every class file starts with. -/
def magic : Nat := 0xCAFEBABE

def readMagic : FormatReader Unit := do
  let n ← u4
  if n = magic then pure () else fail .badMagic

/-- The name of the superclass at an index, where zero stands for none. -/
def superName (pool : Pool) (index : Int) : Except PoolError (Option Text) :=
  if index = 0 then .ok none
  else
    match pool.className index with
    | .ok name => .ok (some name)
    | .error e => .error e

def read : FormatReader ClassFile := do
  readMagic
  let minorVersion ← u2
  let majorVersion ← u2
  let pool ← Pool.read
  let accessFlags ← AccessFlags.read .ofClass
  let thisClass ← readIndex
  let superClass ← readIndex
  let interfaces ← repeated readIndex
  let fields ← Member.readAll .ofField pool
  let methods ← Member.readAll .ofMethod pool
  let attributes ← Attribute.readAll pool
  let thisClass ← resolve (pool.className thisClass)
  let superClass ← resolve (superName pool superClass)
  let interfaces ← resolve (interfaces.mapM pool.className)
  pure {
    minorVersion, majorVersion, pool, accessFlags, thisClass, superClass, interfaces, fields,
    methods, attributes }

/-- The class at the front of a file.  What follows it is ignored. -/
def parse (file : Window) : Except FormatFault ClassFile :=
  match read file with
  | .ok (c, _) => .ok c
  | .error e => .error e

end ClassFile

end Bytecode
