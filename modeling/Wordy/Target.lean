import Wordy.Javascript
import Wordy.Source

/-! The languages that programs are written out in. -/

namespace Wordy

inductive Target
  | javascript | wordy
deriving DecidableEq, Repr

namespace Target

def all : List Target := [javascript, wordy]

def name : Target → String
  | javascript => "js"
  | wordy => "wordy"

def named? (name : String) : Option Target := all.find? (·.name == name)

def lowered (name : String) : String := name.map Char.toLower

/-- The target of a name in any case of the ASCII letters; the script has two longer names. -/
def ofName? (name : String) : Option Target :=
  if lowered name ∈ ["javascript", "ecmascript"] then some javascript else named? (lowered name)

def unknownMessage (name : String) : String :=
  "Unknown target '" ++ lowered name ++ "'. Expected js or wordy."

def render : Target → Program → String
  | javascript, program => program.javascript
  | wordy, program => program.source

end Target

end Wordy
