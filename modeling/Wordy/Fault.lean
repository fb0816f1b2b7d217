import Wordy.Position

/-! What can be wrong with a text, and how it is told. -/

namespace Wordy

inductive Fault
  /-- None of the tokens that may stand here does; the list holds their forms. -/
  | unexpected (expected : List String)
  | endOfText
  | reserved (word : String)
  | untypedVariable (name : String)
  | untypedParameter (name function : String)
  | nestedFunction
  | noExpression (word : String)
  | tooDeep
  /-- The phrasebook spells a token by the empty phrase, and reading no longer gets ahead. -/
  | stalled
deriving DecidableEq, Repr

def maxOperators : Nat := 256

namespace Fault

def expected : Fault → List String
  | unexpected forms => forms
  | _ => []

def message : Fault → String
  | unexpected forms => "Expected: " ++ " | ".intercalate forms ++ "."
  | endOfText => "Unexpected EOF."
  | reserved word => "Unexpected identifier \"" ++ word ++ "\"."
  | untypedVariable name =>
    "Variable declaration \"" ++ name ++ "\" must either have a type or initial value."
  | untypedParameter name function =>
    "Parameter \"" ++ name ++ "\" of function \"" ++ function ++ "\" requires a valid type."
  | nestedFunction => "Functions can only be declared at the top level."
  | noExpression word => "Invalid expression \"" ++ word ++ "\"."
  | tooDeep => "Expression nests more than " ++ toString maxOperators ++ " operators."
  | stalled => "Reading gets no further."

end Fault

/-- A fault at the start of a suffix of the text. -/
structure Failure where
  fault : Fault
  rest : List Char
deriving DecidableEq, Repr

structure Diagnostic where
  fault : Fault
  position : Position
deriving DecidableEq, Repr

namespace Diagnostic

def text (d : Diagnostic) : String :=
  "L" ++ toString d.position.line ++ ":C" ++ toString d.position.column ++ "\n" ++ d.fault.message

end Diagnostic

end Wordy
