import SlotLisp.CommandLine

/-!
# The program

Reads the file that the arguments name, and prints what the command comes to.
-/

open SlotLisp CommandLine

/-- Why a file could not be read, as the operating system words it. -/
def readFailure : IO.Error → String
  | .noFileOrDirectory .. => "No such file or directory (os error 2)"
  | .permissionDenied .. => "Permission denied (os error 13)"
  | .inappropriateType .. => "Is a directory (os error 21)"
  | e => toString e

/-- The text of a file, which has to be well-formed UTF-8. -/
def readText (path : String) : IO (Except String String) := do
  match ← (IO.FS.readBinFile path).toBaseIO with
  | .ok bytes =>
    match String.fromUTF8? bytes with
    | some text => return .ok text
    | none => return .error "stream did not contain valid UTF-8"
  | .error e => return .error (readFailure e)

/-- The program has no functions besides the builtin operations. -/
def main (args : List String) : IO UInt32 := do
  let command := Command.ofArgs args
  let contents ← match command.path? with
    | some path => readText path
    | none => pure (.ok "")
  let report := @Command.report .empty contents command
  (← IO.getStdout).putStr report.out
  (← IO.getStderr).putStr report.err
  return report.exitCode
