/-! Places in a source text. Offsets count bytes of its UTF-8 form; a carriage return, a line feed,
or the two together end a line. -/

namespace Wordy

/-- Lines count from one and columns from zero, both in 32-bit words, which wrap. -/
structure Position where
  line : UInt32
  column : UInt32
  offset : Nat
deriving DecidableEq, Repr

/-- The offsets at which the lines of a text start, in order. -/
structure LineTable where
  starts : List Nat
deriving DecidableEq, Repr

namespace LineTable

/-- The starts of the lines after the one that `offset` lies in. -/
def startsFrom (offset : Nat) : List Char → List Nat
  | '\r' :: '\n' :: rest => (offset + 2) :: startsFrom (offset + 2) rest
  | '\r' :: rest => (offset + 1) :: startsFrom (offset + 1) rest
  | '\n' :: rest => (offset + 1) :: startsFrom (offset + 1) rest
  | c :: rest => startsFrom (offset + c.utf8Size) rest
  | [] => []

def ofText (source : List Char) : LineTable := ⟨0 :: startsFrom 0 source⟩

def lineCount (table : LineTable) : Nat := table.starts.length

/-- An offset past the end counts from the start of the last line. -/
def position (table : LineTable) (offset : Nat) : Position :=
  let passed := table.starts.takeWhile (· ≤ offset)
  ⟨.ofNat passed.length, .ofNat (offset - passed.getLastD 0), offset⟩

end LineTable

end Wordy
