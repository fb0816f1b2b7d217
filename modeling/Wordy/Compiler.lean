import Wordy.FileError
import Wordy.Parse
import Wordy.Program.Dump
import Wordy.Target

/-! Compilation: a source is parsed, dumped where the settings ask for it, and written out. -/

namespace Wordy

structure Settings where
  target : Target := .javascript
  printAst : Bool := false
deriving DecidableEq, Repr

structure Compilation where
  ast : Option String
  code : String
deriving DecidableEq, Repr

def Compilation.preamble (c : Compilation) : String :=
  match c.ast with
  | some ast => ast ++ "\n"
  | none => ""

inductive CompileError
  | invalid (diagnostic : Diagnostic)
  | unreadable (error : FileError)
deriving DecidableEq, Repr

def CompileError.message : CompileError → String
  | invalid diagnostic => "Syntax Error: " ++ diagnostic.text
  | unreadable error => "File error: " ++ error.message

/-- Parses a source and writes it out in the target. -/
def compile (source : String) (target : Target) : Except Diagnostic String :=
  (parse source).map target.render

/-- The fault lies at the end of the source, so that more of it might mend it. -/
def Diagnostic.isIncomplete (diagnostic : Diagnostic) (source : String) : Bool :=
  Text.byteLength (Text.trimEnd source.toList) ≤ diagnostic.position.offset

namespace Settings

def compilation (settings : Settings) (program : Program) : Compilation where
  ast := if settings.printAst then some program.dump.text else none
  code := settings.target.render program

def compile (settings : Settings) (source : String) : Except Diagnostic Compilation :=
  (parse source).map settings.compilation

def compileFile (settings : Settings) (content : Except FileError ByteArray) :
    Except CompileError Compilation :=
  match FileError.decode content with
  | .ok source => (settings.compile source).mapError .invalid
  | .error error => .error (.unreadable error)

end Settings

end Wordy
