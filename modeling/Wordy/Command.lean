import Wordy.Directory
import Wordy.Invocation
import Wordy.Session

/-! A run of the program, from its arguments to its exit code. -/

namespace Wordy

/-- What a run needs of its surroundings. -/
structure Host (m : Type → Type) where
  readFile : String → m (Except FileError ByteArray)
  writeFile : String → ByteArray → m (Except FileError Unit)
  readInput : m Input
  print : String → m Unit
  printError : String → m Unit

namespace Refusal

def helpText : String := "\n".intercalate
  ["Compile Wordy programs to JavaScript",
   "",
   "Usage: wordy [OPTIONS]",
   "",
   "Options:",
   "  -f, --file <FILE>      Wordy source file to compile",
   "  -e, --eval <CODE>      Inline Wordy code to compile",
   "  -r, --repl             Start interactive REPL",
   "  -t, --target <TARGET>  Output language [default: js] [possible values: js, wordy]",
   "      --print-ast        Print the AST as JSON before the generated code",
   "  -o, --output <FILE>    Write generated code to this file instead of stdout",
   "  -v, --verbose          Enable debug logging on stderr",
   "  -h, --help             Print help",
   "  -V, --version          Print version",
   ""]

def usageError (reason : String) : String :=
  "error: " ++ reason ++ "\n\nFor more information, try '--help'.\n"

def message : Refusal → String
  | help => helpText
  | version => "wordy 0.1.0\n"
  | unknownArgument => usageError "unexpected argument"
  | invalidValue => usageError "an option lacks a valid value"
  | argumentConflict => usageError "an option is given twice"
  | tooManyValues => usageError "an option takes no value"

/-- Help and version are answers, not errors. -/
def isAnswer : Refusal → Bool
  | help => true
  | version => true
  | _ => false

end Refusal

namespace Command

def usage : String := Session.versionLine ++ "\n".intercalate
  ["",
   "Usage:",
   "  wordy --file <FILE>     Compile a Wordy file",
   "  wordy --eval <CODE>     Compile inline Wordy code",
   "  wordy --repl            Start interactive REPL",
   "",
   "Run 'wordy --help' for more options.",
   ""]

variable {m : Type → Type} [Monad m] (host : Host m)

def fileReport (action path : String) (error : FileError) : String :=
  "Error: Could not " ++ action ++ " file '" ++ path ++ "': " ++ error.message ++ "\n"

/-- Hands out what was compiled: the code goes to the output file if there is one. -/
def emit (output : Option String) (c : Compilation) : m Nat := do
  host.print c.preamble
  match output with
  | none =>
    host.print c.code
    return 0
  | some path =>
    match ← host.writeFile path c.code.toUTF8 with
    | .ok () => return 0
    | .error error =>
      host.printError (fileReport "write" path error)
      return 1

def finish (output : Option String) (result : Except CompileError Compilation) : m Nat := do
  match result with
  | .ok c => emit host output c
  | .error error =>
    host.printError (error.message ++ "\n")
    return 1

/-- A file goes before code, code before a session. -/
def start (invocation : Invocation) : m Next := do
  let settings : Settings := ⟨invocation.target, invocation.printAst⟩
  match invocation.file, invocation.code with
  | some path, _ =>
    match settings.compileFile (← host.readFile path) with
    | .error (.unreadable error) =>
      host.printError (fileReport "read" path error)
      return .stop 1
    | result => return .stop (← finish host invocation.output result)
  | none, some code =>
    return .stop (← finish host invocation.output ((settings.compile code).mapError .invalid))
  | none, none =>
    if invocation.repl then
      host.print Session.banner
      return .session (.begin settings)
    else
      host.print usage
      return .stop 0

def begin (arguments : List String) : m Next := do
  match Invocation.ofArguments arguments with
  | .ok invocation => start host invocation
  | .error refusal =>
    if refusal.isAnswer then
      host.print refusal.message
      return .stop 0
    else
      host.printError refusal.message
      return .stop 2

/-- One turn of a session: a prompt, an input and the answer to it. -/
def turn (session : Session) : m Next := do
  host.print session.prompt
  let turn := session.respond (← host.readInput)
  host.print turn.out
  host.printError turn.err
  return turn.next

end Command

end Wordy
