import Wordy.Compiler

/-! An interactive session. Lines are gathered in a buffer while the snippet they make is
incomplete; a blank line ends the gathering. Commands are recognised only between snippets. -/

namespace Wordy

structure Session where
  settings : Settings
  buffer : String
  isGathering : Bool
deriving DecidableEq, Repr

inductive Input
  | line (text : String)
  | interrupt
  | finish
  | unreadable
deriving DecidableEq, Repr

namespace Input

/-- A line without the line feed that ends it and one carriage return before that. -/
def chomp (line : List Char) : List Char :=
  match line.reverse with
  | '\n' :: '\r' :: rest => rest.reverse
  | '\n' :: rest => rest.reverse
  | _ => line

/-- A line as it was received; nothing is received only at the end. -/
def ofBytes (bytes : ByteArray) : Input :=
  if bytes.isEmpty then finish
  else
    match String.fromUTF8? bytes with
    | some text => line (.ofList (chomp text.toList))
    | none => unreadable

/-- The lines of a stream, each with the line feed that ends it. -/
def splitLines : List UInt8 → List (List UInt8)
  | [] => []
  | byte :: bytes =>
    if byte = 10 then [byte] :: splitLines bytes
    else
      match splitLines bytes with
      | [] => [[byte]]
      | first :: others => (byte :: first) :: others

def ofStream (bytes : ByteArray) : List Input :=
  (splitLines bytes.toList).map fun line => ofBytes ⟨line.toArray⟩

end Input

/-- How a session goes on after a turn, or the exit code that it ends with. -/
inductive Next
  | session (session : Session)
  | stop (exit : Nat)
deriving DecidableEq, Repr

structure Turn where
  out : String := ""
  err : String := ""
  next : Next
deriving DecidableEq, Repr

namespace Session

def versionLine : String := "Wordy Compiler v0.1.0\n"

def banner : String := versionLine ++ "Type Wordy code or 'exit' to quit.\n\n"

def help : String := "\n".intercalate
  ["REPL Commands:",
   "  .help          - Show this help message",
   "  .ast           - Toggle AST printing",
   "  .target <t>    - Select output language (js, wordy)",
   "  .clear         - Clear the screen",
   "  .exit          - Exit the REPL",
   "  exit           - Exit the REPL",
   "  quit           - Exit the REPL",
   ""]

def begin (settings : Settings) : Session := ⟨settings, "", false⟩

def prompt (s : Session) : String := if s.isGathering then "... " else "> "

def reset (s : Session) : Session := { s with buffer := "", isGathering := false }

def isExit (line : List Char) : Bool :=
  String.ofList line ∈ ["exit", ".exit", "quit"]

/-- Answers a command, given without the blanks around it. -/
def command (s : Session) (line : List Char) : Turn :=
  match String.ofList (Text.word line) with
  | ".help" => { out := help, next := .session s }
  | ".clear" => { out := "\x1b[2J\x1b[1;1H", next := .session s }
  | ".ast" =>
    let settings := { s.settings with printAst := !s.settings.printAst }
    { out := "AST printing: " ++ (if settings.printAst then "enabled" else "disabled") ++ "\n"
      next := .session { s with settings } }
  | ".target" =>
    match Text.word (Text.afterWord line) with
    | [] => { out := "Target: " ++ s.settings.target.name ++ "\n", next := .session s }
    | value =>
      match Target.ofName? (.ofList value) with
      | some target =>
        { out := "Target: " ++ target.name ++ "\n"
          next := .session { s with settings := { s.settings with target } } }
      | none => { out := Target.unknownMessage (.ofList value) ++ "\n", next := .session s }
  | _ =>
    { out := "Unknown command: " ++ .ofList line ++ "\nType .help for available commands\n"
      next := .session s }

/-- Compiles the text, or keeps it in the buffer if it is incomplete and more may come. -/
def submit (s : Session) (text : String) (isLast : Bool) : Turn :=
  match s.settings.compile text with
  | .ok c => { out := c.preamble ++ c.code, next := .session s.reset }
  | .error d =>
    if !isLast && d.isIncomplete text then
      { next := .session { s with buffer := text, isGathering := true } }
    else
      { err := (CompileError.invalid d).message ++ "\n", next := .session s.reset }

def enter (s : Session) (line : String) : Turn :=
  let trimmed := Text.trim line.toList
  if !s.isGathering && isExit trimmed then { out := "Goodbye!\n", next := .stop 0 }
  else if !s.isGathering && trimmed.head? = some '.' then s.command trimmed
  else if !s.isGathering && trimmed.isEmpty then { next := .session s }
  else
    let buffer := if s.isGathering then s.buffer ++ "\n" else s.buffer
    s.submit (buffer ++ line) (s.isGathering && trimmed.isEmpty)

def respond (s : Session) : Input → Turn
  | .line text => s.enter text
  | .interrupt =>
    if s.isGathering then { out := "^C\n", next := .session s.reset }
    else { out := "Press Ctrl-D or type 'exit' to quit\n", next := .session s }
  | .finish => { out := "\nGoodbye!\n", next := .stop 0 }
  | .unreadable =>
    { err := "Error: Repl(\"Readline error: stream did not contain valid UTF-8\")\n"
      next := .stop 1 }

end Session

end Wordy
