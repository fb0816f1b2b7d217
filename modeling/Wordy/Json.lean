import Wordy.Text.Quoted

/-! JSON values without numbers, and their layout with one member or element to a line. -/

namespace Wordy

inductive Json
  | null
  | boolean (value : Bool)
  | string (value : String)
  | array (elements : List Json)
  /-- The members keep their order. -/
  | object (members : List (String × Json))

namespace Json

def newline (depth : Nat) : String := .ofList ('\n' :: List.replicate (2 * depth) ' ')

mutual

/-- The text of a value inside `depth` others; an empty list or object stays on its line. -/
def pretty (depth : Nat) : Json → String
  | null => "null"
  | boolean true => "true"
  | boolean false => "false"
  | string value => Text.quote value
  | array [] => "[]"
  | array (element :: elements) =>
    "[" ++ newline (depth + 1) ++ element.pretty (depth + 1) ++
      prettyElements (depth + 1) elements ++ newline depth ++ "]"
  | object [] => "\x7b\x7d"
  | object ((key, value) :: members) =>
    "\x7b" ++ newline (depth + 1) ++ Text.quote key ++ ": " ++ value.pretty (depth + 1) ++
      prettyMembers (depth + 1) members ++ newline depth ++ "\x7d"

/-- The elements after the first. -/
def prettyElements (depth : Nat) : List Json → String
  | [] => ""
  | element :: elements =>
    "," ++ newline depth ++ element.pretty depth ++ prettyElements depth elements

/-- The members after the first. -/
def prettyMembers (depth : Nat) : List (String × Json) → String
  | [] => ""
  | (key, value) :: members =>
    "," ++ newline depth ++ Text.quote key ++ ": " ++ value.pretty depth ++
      prettyMembers depth members

end

def text (value : Json) : String := value.pretty 0

def optional (toJson : α → Json) : Option α → Json
  | none => null
  | some value => toJson value

end Json

end Wordy
