import Mathlib
import Wordy.Position
import Wordy.Proofs.ByteOrder
import Wordy.Text.Blank

/-! The table of the lines of a text. What ends a line is a carriage return with a line feed behind
it, or either of the two alone; a line starts at the beginning of the text and behind whatever ends
a line. The table lists these starts in increasing order, which is what a scan over the bytes finds
and what a search by halves needs. -/

namespace Wordy

open Text

section

variable {start offset : Nat} {c : Char} {s : List Char}

end

namespace LineTable

section

variable {starts : List Nat}

end

/-! ### Scanning the bytes and searching by halves -/

/-- Where lines start behind the byte with the index. -/
def scan (bytes : List UInt8) (index : Nat) : List Nat :=
  match h : bytes[index]? with
  | none => []
  | some byte =>
    if byte = 13 ∧ bytes[index + 1]? = some 10 then (index + 2) :: scan bytes (index + 2)
    else if byte = 13 ∨ byte = 10 then (index + 1) :: scan bytes (index + 1)
    else scan bytes (index + 1)
termination_by bytes.length - index
decreasing_by
  all_goals
    have hlt := (List.getElem?_eq_some_iff.mp h).1
    omega

def ofBytes (bytes : List UInt8) : LineTable := ⟨0 :: scan bytes 0⟩

section

variable {starts later : List Nat} {offset bound : Nat}

end

section

variable {table : LineTable} {offset offset' : Nat}

end

end LineTable

end Wordy
