import Bytecode.CommandLine

/-!
# The program

Reads the file that the arguments name and prints what `CommandLine` makes of it.
-/

namespace Bytecode.CommandLine

/-- The message about a file that cannot be read. -/
def readError (file : String) : IO.Error → Text
  | .noFileOrDirectory .. => "ENOENT: no such file or directory, open '" ++ Text.ofString file ++ "'"
  | .permissionDenied .. => "EACCES: permission denied, open '" ++ Text.ofString file ++ "'"
  | e => Text.ofString e.toString

/-- The content of a file, or why it cannot be read. -/
def readFile (file : String) : IO Content := do
  try
    let content ← IO.FS.readBinFile file
    return .ok content.data
  catch e => return .error (.error (readError file e))

/-- Prints what a run has to say and hands on its exit code. -/
def Outcome.print (o : Outcome) : IO UInt32 := do
  for message in o.stderr do
    IO.eprintln (String.ofList message.toChars)
  for message in o.stdout do
    IO.println (String.ofList message.toChars)
  return o.exitCode.toUInt32

end Bytecode.CommandLine

open Bytecode CommandLine in
def main (arguments : List String) : IO UInt32 := do
  let style : Style := if ← (← IO.getStderr).isTty then .coloured else .plain
  let outcome ← run .usual style readFile arguments
  outcome.print
