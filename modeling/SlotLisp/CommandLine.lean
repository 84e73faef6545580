import SlotLisp.Program

/-!
# The command line

The arguments are scanned from left to right into a `Command`. `Command.report` is what a command
comes to, given the contents of the file that it names, if it names one.
-/

namespace SlotLisp.CommandLine

/-- What is evaluated when no source is given. -/
def demo : String :=
  "; sequential let bindings\n" ++
  "(let ((foo 1) (bar foo)) bar)\n" ++
  "(define square (lambda (x) (* x x)))\n" ++
  "(defun twice (f x) (f (f x)))\n" ++
  "(twice square 3)\n"

def usage : String :=
  "Usage: cl [OPTIONS] [FILE]\n\n" ++
  "Reads a program from FILE (or a built-in demo when no source is given),\n" ++
  "evaluates it and prints the value of the last expression.\n\n" ++
  "Options:\n" ++
  "  -e, --eval <SOURCE>  Evaluate SOURCE instead of a file\n" ++
  "      --env            Print the global bindings after evaluation\n" ++
  "  -h, --help           Show this message"

inductive Source
  | demo
  | inline (text : String)
  | file (path : String)
  deriving DecidableEq, Repr

structure Options where
  source : Source := .demo
  showEnv : Bool := false
  deriving DecidableEq, Repr

inductive Misuse
  | missingSource (option : String)
  | unknownOption (option : String)
  deriving DecidableEq, Repr

def Misuse.message : Misuse → String
  | missingSource option => option ++ " requires a source argument"
  | unknownOption option => "unknown option '" ++ option ++ "'"

inductive Command
  | help
  | refuse (misuse : Misuse)
  | run (options : Options)
  deriving DecidableEq, Repr

/-- Scans the arguments. The first request for help and the first misuse decide; of several
sources the last one counts. -/
def scan (options : Options) : List String → Command
  | [] => .run options
  | arg :: rest =>
    if arg = "-h" || arg = "--help" then .help
    else if arg = "-e" || arg = "--eval" then
      match rest with
      | [] => .refuse (.missingSource arg)
      | text :: rest => scan { options with source := .inline text } rest
    else if arg = "--env" then scan { options with showEnv := true } rest
    else if arg.toList.head? = some '-' then .refuse (.unknownOption arg)
    else scan { options with source := .file arg } rest

def Command.ofArgs (args : List String) : Command := scan {} args

/-- The file that a command has to read. -/
def Command.path? : Command → Option String
  | run { source := .file path, .. } => some path
  | _ => none

structure Report where
  exitCode : UInt32
  out : String := ""
  err : String := ""
  deriving DecidableEq, Repr

def isNative : Value → Bool
  | .native _ => true
  | _ => false

/-- The bindings of an environment: the names of native functions on one line, and then, if
there are any, the others with their values, one on a line. -/
def listing (bindings : List (String × Value)) : String :=
  let (builtins, others) := bindings.partition fun (_, v) => isNative v
  "Builtin functions (" ++ toString builtins.length ++ "):\n" ++
    "  " ++ " ".intercalate (builtins.map (·.1)) ++ "\n" ++
    if others.isEmpty then ""
    else
      "User-defined (" ++ toString others.length ++ "):\n" ++
        String.join (others.map fun (name, v) => "  " ++ name ++ " = " ++ v.text ++ "\n")

variable [Host]

/-- Evaluates a source in a new global environment. -/
def runSource (showEnv : Bool) (source : String) : Report :=
  let (env, st) := ({} : Store).newGlobal
  match (evalText source env).run st with
  | .ok context st =>
    { exitCode := 0
      out := (if showEnv then listing (st.visibleValues env) else "") ++ context.value.text ++
        "\n" }
  | .error e st =>
    { exitCode := 1
      out := if showEnv then listing (st.visibleValues env) else ""
      err := e.message ++ "\n" }

/-- What a command comes to. `contents` stands for the file that it names: its text, or why
there is none. -/
def Command.report (contents : Except String String) : Command → Report
  | help => { exitCode := 0, out := usage ++ "\n" }
  | refuse misuse =>
    { exitCode := 2, err := "Error: " ++ misuse.message ++ "\n\n" ++ usage ++ "\n" }
  | run { source := .demo, showEnv } => runSource showEnv demo
  | run { source := .inline text, showEnv } => runSource showEnv text
  | run { source := .file path, showEnv } =>
    match contents with
    | .ok text => runSource showEnv text
    | .error reason =>
      { exitCode := 1, err := "Error: cannot read " ++ path ++ ": " ++ reason ++ "\n" }

end SlotLisp.CommandLine
