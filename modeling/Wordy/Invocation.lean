import Wordy.Target

/-! The arguments of the program. They are read from left to right, and the first one at fault
decides what is wrong. An option may be given once; the value of an option that stands apart from it
is examined only when the next option or the end is reached. -/

namespace Wordy

structure Invocation where
  file : Option String := none
  code : Option String := none
  output : Option String := none
  target : Target := .javascript
  repl : Bool := false
  printAst : Bool := false
  verbose : Bool := false
deriving DecidableEq, Repr

inductive Refusal
  | help | version | unknownArgument | invalidValue | argumentConflict | tooManyValues
deriving DecidableEq, Repr

/-- The options that take a value. -/
inductive Setting
  | file | code | output | target
deriving DecidableEq, Repr

inductive Flag
  | repl | printAst | verbose
deriving DecidableEq, Repr

inductive Switch
  | setting (setting : Setting) | flag (flag : Flag) | help | version
deriving DecidableEq, Repr

namespace Switch

def ofLetter? : Char → Option Switch
  | 'f' => some (setting .file)
  | 'e' => some (setting .code)
  | 'o' => some (setting .output)
  | 't' => some (setting .target)
  | 'r' => some (flag .repl)
  | 'v' => some (flag .verbose)
  | 'h' => some help
  | 'V' => some version
  | _ => none

def ofName? : String → Option Switch
  | "file" => some (setting .file)
  | "eval" => some (setting .code)
  | "output" => some (setting .output)
  | "target" => some (setting .target)
  | "repl" => some (flag .repl)
  | "print-ast" => some (flag .printAst)
  | "verbose" => some (flag .verbose)
  | "help" => some help
  | "version" => some version
  | _ => none

end Switch

namespace Invocation

def set (invocation : Invocation) (value : String) : Setting → Except Refusal Invocation
  | .file => .ok { invocation with file := some value }
  | .code => .ok { invocation with code := some value }
  | .output => .ok { invocation with output := some value }
  | .target =>
    match Target.named? value with
    | some target => .ok { invocation with target }
    | none => .error .invalidValue

def raise (invocation : Invocation) : Flag → Invocation
  | .repl => { invocation with repl := true }
  | .printAst => { invocation with printAst := true }
  | .verbose => { invocation with verbose := true }

/-- What the arguments so far say. A setting waits for its value, or with it, to be examined. -/
structure Progress where
  invocation : Invocation := {}
  given : List Switch := []
  waiting : Option (Setting × Option String) := none
deriving DecidableEq, Repr

namespace Progress

def mark (p : Progress) (switch : Switch) : Except Refusal Progress :=
  if switch ∈ p.given then .error .argumentConflict
  else .ok { p with given := switch :: p.given }

def assign (p : Progress) (setting : Setting) (value : String) : Except Refusal Progress := do
  let p ← p.mark (.setting setting)
  return { p with invocation := ← p.invocation.set value setting }

def settle (p : Progress) : Except Refusal Progress :=
  match p.waiting with
  | none => .ok p
  | some (_, none) => .error .invalidValue
  | some (setting, some value) => { p with waiting := none }.assign setting value

def raise (p : Progress) (flag : Flag) : Except Refusal Progress := do
  let p ← (← p.settle).mark (.flag flag)
  return { p with invocation := p.invocation.raise flag }

/-- A setting with the value that is attached to it, or one that waits for its value. -/
def receive (p : Progress) (setting : Setting) (value : Option String) :
    Except Refusal Progress := do
  let p ← p.settle
  match value with
  | some value => p.assign setting value
  | none => return { p with waiting := some (setting, none) }

def refuse (p : Progress) (refusal : Refusal) : Except Refusal Progress := do
  let _ ← p.settle
  .error refusal

/-- Letters behind one dash. A setting takes the letters after it as its value, less an equals
sign. -/
def readLetters (p : Progress) : List Char → Except Refusal Progress
  | [] => .ok p
  | c :: letters =>
    match Switch.ofLetter? c with
    | none => .error .unknownArgument
    | some .help => p.refuse .help
    | some .version => p.refuse .version
    | some (.flag flag) => do (← p.raise flag).readLetters letters
    | some (.setting setting) =>
      p.receive setting <|
        match letters with
        | [] => none
        | '=' :: value => some (.ofList value)
        | value => some (.ofList value)

/-- A name behind two dashes, with a value behind an equals sign or without one. -/
def readName (p : Progress) (text : List Char) : Except Refusal Progress :=
  let value :=
    match text.dropWhile (· != '=') with
    | [] => none
    | _ :: value => some (String.ofList value)
  match Switch.ofName? (.ofList (text.takeWhile (· != '='))), value with
  | none, _ => .error .unknownArgument
  | some (.setting setting), value => p.receive setting value
  | some _, some _ => .error .tooManyValues
  | some (.flag flag), none => p.raise flag
  | some .help, none => p.refuse .help
  | some .version, none => p.refuse .version

/-- There are no arguments but options and their values; a lone dash can only be a value. -/
def readArgument (p : Progress) (argument : String) : Except Refusal Progress :=
  match argument.toList with
  | '-' :: '-' :: text => p.readName text
  | '-' :: c :: letters => p.readLetters (c :: letters)
  | _ =>
    match p.waiting with
    | some (setting, none) => .ok { p with waiting := some (setting, some argument) }
    | _ => .error .unknownArgument

/-- Two dashes alone end the options. -/
def readAll (p : Progress) : List String → Except Refusal Progress
  | [] => p.settle
  | argument :: arguments =>
    if argument = "--" then
      if arguments = [] then p.settle else .error .unknownArgument
    else do
      (← p.readArgument argument).readAll arguments

end Progress

def ofArguments (arguments : List String) : Except Refusal Invocation :=
  (Progress.readAll {} arguments).map (·.invocation)

end Invocation

end Wordy
