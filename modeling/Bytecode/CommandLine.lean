import Bytecode.ClassListing

/-!
# The command line

One file is named, and `--strict` may be given: decoding then stops at a byte that is no opcode.
The listing goes to standard output as a whole or not at all; warnings and the error, if there is
one, go to standard error.  The program is the same for every way of reading files: `runOn` takes
them from a table and keeps a record of those that were asked for.
-/

namespace Bytecode.CommandLine

/-- The line that explains the arguments. -/
def usage : String := "Usage: jvm-code-listing [--strict] FILE.class"

/-- The one option. -/
def strict : String := "--strict"

/-- What the arguments ask for. -/
structure Invocation where
  file : String
  policy : Code.Policy
deriving DecidableEq, Repr

def isOption (argument : String) : Bool := "--".toList.isPrefixOf argument.toList

/-- Reads the arguments.  There has to be exactly one file, and no option but `--strict`. -/
def parse (arguments : List String) : Option Invocation :=
  let options := arguments.filter isOption
  match arguments.filter (!isOption ·) with
  | [file] =>
    if options.all (· = strict) then some ⟨file, if strict ∈ options then .abort else .resume⟩
    else none
  | _ => none

/-! ## Messages -/

/-- How messages are marked: what is made of a text that is yellow, red or bold. -/
structure Style where
  yellow : Text → Text
  red : Text → Text
  bold : Text → Text

namespace Style

/-- Nothing is marked. -/
def plain : Style := ⟨id, id, id⟩

/-- Switches a property of the terminal on before a text and off after it. -/
def escape (on off : Nat) (t : Text) : Text :=
  "\x1b[" ++ Text.ofNat on ++ "m" ++ t ++ "\x1b[" ++ Text.ofNat off ++ "m"

/-- The marks that a terminal understands. -/
def coloured : Style := ⟨escape 33 39, escape 31 39, escape 1 22⟩

/-- Warnings are yellow. -/
def warning (s : Style) (t : Text) : Text := s.yellow t

/-- An error is announced in bold red. -/
def error (s : Style) (message : Text) : Text := s.red (s.bold "error") ++ ": " ++ message

end Style

/-! ## Files -/

/-- A value that is thrown in the place of an error. -/
inductive Value where
  | undefined
  | null
  | boolean (b : Bool)
  | number (bits : UInt64)
  | string (text : Text)
  | list (items : List Value)
  /-- Anything else, which says itself how it is shown. -/
  | object (shown : Text)

mutual

/-- A value as text. -/
def Value.text : Value → Text
  | .undefined => "undefined"
  | .null => "null"
  | .boolean b => if b then "true" else "false"
  | .number bits => Decimal.Layout.description.double bits
  | .string text => text
  | .list items => Text.join "," (Value.texts items)
  | .object shown => shown

/-- The items of a list as texts.  An item that stands for nothing is left empty. -/
def Value.texts : List Value → List Text
  | [] => []
  | .undefined :: items | .null :: items => [] :: Value.texts items
  | item :: items => item.text :: Value.texts items

end

/-- Why a file cannot be read: an error, or whatever else was thrown. -/
inductive Rejection where
  | error (message : Text)
  | value (v : Value)

def Rejection.message : Rejection → Text
  | .error message => message
  | .value v => v.text

/-- What reading a file comes to. -/
abbrev Content := Except Rejection (Array UInt8)

/-! ## Running -/

/-- What a run prints and how it ends. -/
structure Outcome where
  exitCode : Nat
  stdout : List Text
  stderr : List Text
deriving DecidableEq, Repr

/-- The answer to arguments that ask for nothing. -/
def usageOutcome (s : Style) : Outcome := ⟨1, [], [s.warning usage]⟩

/-- The listing of a file, or what is wrong with it. -/
def listing (limits : Limits) (policy : Code.Policy) (file : Window) : ClassListing.Report Text :=
  match ClassFile.parse file with
  | .error e => ⟨[], .error (.format e)⟩
  | .ok c => ClassListing.render limits policy c

/-- The answer once the file has been read, or cannot be. -/
def respond (limits : Limits) (s : Style) (policy : Code.Policy) (content : Content) : Outcome :=
  match content with
  | .error rejection => ⟨1, [], [s.error rejection.message]⟩
  | .ok bytes =>
    let report := listing limits policy (Window.ofArray bytes)
    let warnings := report.warnings.map s.warning
    match report.outcome with
    | .error e => ⟨1, [], warnings ++ [s.error e.message]⟩
    | .ok text => ⟨0, [text], warnings⟩

/-- Runs the program on its arguments.  To read a file is all that it asks for. -/
def run {m : Type → Type} [Monad m] (limits : Limits) (s : Style) (readFile : String → m Content)
    (arguments : List String) : m Outcome :=
  match parse arguments with
  | none => pure (usageOutcome s)
  | some i => do
    let content ← readFile i.file
    pure (respond limits s i.policy content)

/-! ## Running on a table of files -/

/-- A table of files by name. -/
abbrev Files := String → Content

/-- Reads a file of a table and notes its name. -/
def Files.read (files : Files) (file : String) : StateM (List String) Content := do
  modify (· ++ [file])
  return files file

/-- A run on a table of files. -/
structure Session extends Outcome where
  /-- The files that were read, in order. -/
  requested : List String
deriving DecidableEq, Repr

/-- Runs the program on a table of files. -/
def runOn (limits : Limits) (s : Style) (files : Files) (arguments : List String) : Session :=
  let (outcome, requested) := Id.run ((run limits s files.read arguments).run [])
  { toOutcome := outcome, requested }

end Bytecode.CommandLine
