import Bytecode.ClassFile
import Bytecode.Listing

/-!
# The listing of a class

A header with the name and the versions of the class, then the signature and the code of every
method.  A method whose code cannot be decoded to its end also causes a warning.  A method whose
signature or code attribute cannot be read ends the listing, and so does one for which there is no
room; the warnings about the methods before it have been given by then.
-/

namespace Bytecode

/-! ## Declarations -/

namespace AccessFlags

/-- Flags that source code does not write as modifiers. -/
def nonModifiers : List String :=
  ["super", "synthetic", "bridge", "varargs", "interface", "annotation", "enum", "module"]

/-- The modifiers of a declaration, each with a space after it. -/
def modifiers (f : AccessFlags) : Text :=
  (f.names.filter (· ∉ nonModifiers)).flatMap fun name ↦
    (if name = "strict" then "strictfp" else name : String) ++ Text.ofString " "

/-- The word that declares a class with these flags. -/
def classWord (f : AccessFlags) : String :=
  if f.has "annotation" then "@interface"
  else if f.has "interface" then "interface"
  else if f.has "enum" then "enum"
  else "class"

end AccessFlags

/-- The result and the name of a method.  A constructor has no result and is called like its class,
without the package. -/
def Member.declared (className : Text) (m : Member) : Except Descriptor.Error Text :=
  if m.name = Text.ofString "<init>" then .ok (className.afterLast '.')
  else do
    let result ← Descriptor.result m.descriptor
    .ok (result.source ++ " " ++ m.name)

/-- The declaration of a method.  The initialiser of a class is declared in a way of its own, and its
descriptor is not looked at. -/
def Member.signature (className : Text) (m : Member) : Except Descriptor.Error Text := do
  if m.name = Text.ofString "<clinit>" then .ok "static \x7b\x7d"
  else
    let parameters ← Descriptor.parameters m.descriptor
    let declared ← m.declared className
    .ok (m.accessFlags.modifiers ++ declared ++ "(" ++
      Text.join ", " (parameters.map (·.source)) ++ ")")

/-! ## Limits -/

/-- What the machine that puts a listing together has room for. -/
structure Limits where
  /-- The most arguments of a call.  All lines of a method are arguments of one call. -/
  arguments : Nat
  /-- The most code units of a text. -/
  units : Nat

/-- A limit that was exceeded. -/
inductive Overrun where
  | arguments
  | units
deriving DecidableEq, Repr

def Overrun.message : Overrun → Text
  | .arguments => "Maximum call stack size exceeded"
  | .units => "Invalid string length"

/-- Why a class cannot be listed. -/
inductive ListingFault where
  | format (fault : FormatFault)
  | overrun (limit : Overrun)
deriving DecidableEq, Repr

def ListingFault.message : ListingFault → Text
  | .format e => FormatFault.message e
  | .overrun limit => limit.message

namespace Limits

/-- Hands the lines of a method over. -/
def call (l : Limits) (lines : List Text) : Except ListingFault (List Text) :=
  if lines.length ≤ l.arguments then .ok lines else .error (.overrun .arguments)

/-- Makes a text. -/
def text (l : Limits) (t : Text) : Except ListingFault Text :=
  if t.length ≤ l.units then .ok t else .error (.overrun .units)

/-- A stack of about a million bytes, of which an argument takes eight, and texts of half a billion
code units. -/
def usual : Limits where
  arguments := 125722
  units := 0x1FFFFFE8

end Limits

namespace ClassListing

/-! ## Code -/

def indent (line : Text) : Text := "  " ++ line

/-- The line about a failure. -/
def stopLine (f : Code.Failure) : Text :=
  indent ("// decoding stopped at offset " ++ Text.ofNat f.offset ++ ": " ++ f.cause.message)

/-- The lines of some instructions. -/
def listed (limits : Limits) (pool : Pool) (is : List Instruction) :
    Except ListingFault (List Text) :=
  if is.isEmpty then .ok []
  else (limits.text (Listing.ofInstructions (some pool.describe) is)).map (·.lines.map indent)

/-- The lines of a decoded code array. -/
def codeLines (limits : Limits) (pool : Pool) (d : Code.Decoded) :
    Except ListingFault (List Text) :=
  (listed limits pool d.instructions).map (· ++ d.failure.toList.map stopLine)

/-! ## Methods -/

/-- What is printed about a method, and the warning that it causes. -/
structure Section where
  lines : List Text
  warning : Option Text
deriving DecidableEq, Repr

/-- The body of a method. -/
def body (limits : Limits) (policy : Code.Policy) (pool : Pool) (m : Member) :
    Except ListingFault Section :=
  match Attribute.find? m.attributes CodeAttribute.name with
  | none => .ok ⟨[indent "// no code"], none⟩
  | some found =>
    match CodeAttribute.read pool (Window.ofList found.info) with
    | .error e => .error (.format e)
    | .ok (content, _) =>
      let d := Code.decode policy (Window.ofList content.code)
      match codeLines limits pool d with
      | .error e => .error e
      | .ok lines => .ok ⟨lines, d.failure.map (·.warning content.code.length)⟩

/-- A method: an empty line, its signature and its body. -/
def method (limits : Limits) (policy : Code.Policy) (pool : Pool) (className : Text) (m : Member) :
    Except ListingFault Section :=
  match m.signature className with
  | .error e => .error (.format (.invalid (.descriptor e)))
  | .ok signature =>
    match body limits policy pool m with
    | .error e => .error e
    | .ok b => .ok { b with lines := [] :: signature :: b.lines }

/-! ## Classes -/

/-- The warnings that were given, and the outcome after them. -/
structure Report (α : Type) where
  warnings : List Text
  outcome : Except ListingFault α

/-- Goes on with a good outcome; the warnings stay. -/
def Report.andThen {α β : Type} (r : Report α) (f : α → Except ListingFault β) : Report β :=
  ⟨r.warnings, r.outcome >>= f⟩

/-- The methods of a class, up to the first that cannot be listed.  The warning about a method is
given before its lines are handed over. -/
def methods (limits : Limits) (policy : Code.Policy) (pool : Pool) (className : Text) :
    List Member → Report (List Text)
  | [] => ⟨[], .ok []⟩
  | m :: rest =>
    match method limits policy pool className m with
    | .error e => ⟨[], .error e⟩
    | .ok s =>
      match limits.call s.lines with
      | .error e => ⟨s.warning.toList, .error e⟩
      | .ok lines =>
        let more := methods limits policy pool className rest
        ⟨s.warning.toList ++ more.warnings, more.outcome.map (lines ++ ·)⟩

/-- The first three lines of a listing.  A superclass with an empty name is not shown. -/
def header (c : ClassFile) : List Text :=
  let superclass : Text :=
    match c.superClass with
    | none | some [] => []
    | some name => " extends " ++ sourceName name
  [c.accessFlags.modifiers ++ Text.ofString c.accessFlags.classWord ++ " " ++
      sourceName c.thisClass ++ superclass,
    indent ("minor version: " ++ Text.ofNat c.minorVersion),
    indent ("major version: " ++ Text.ofNat c.majorVersion)]

/-- The lines of the listing of a class. -/
def lines (limits : Limits) (policy : Code.Policy) (c : ClassFile) : Report (List Text) :=
  (methods limits policy c.pool (sourceName c.thisClass) c.methods).andThen fun ls ↦
    .ok (header c ++ ls)

/-- The listing of a class. -/
def render (limits : Limits) (policy : Code.Policy) (c : ClassFile) : Report Text :=
  (lines limits policy c).andThen fun ls ↦ limits.text (Text.join "\n" ls)

end ClassListing

end Bytecode
