import Wordy.Fault
import Wordy.Phrasebook

/-! Reading a text piece by piece. What can be read is one of several tokens, a name, and a quoted
text. A reader that finds what it looks for moves past the blanks behind it and forgets what was
tried before; one that does not stays where it is. -/

namespace Wordy

open Text

/-- What is left of the text, and the tokens that were looked for and missed since the last move. -/
structure Cursor where
  rest : List Char
  tried : List Token
deriving DecidableEq, Repr

/-- A reader changes the cursor also where it fails. -/
abbrev Reader := EStateM Failure Cursor

namespace Cursor

def start (text : List Char) : Cursor := ⟨text, []⟩

/-- What is left from the next word on. -/
def ahead (c : Cursor) : List Char := skipBlank c.rest

end Cursor

namespace Reader

def fail (fault : Fault) (rest : List Char) : Reader α := throw ⟨fault, rest⟩

/-- What is left from the next word on, for a failure that is found only later. -/
def ahead : Reader (List Char) := return (← get).ahead

/-- Looks for the first value whose token comes next, without moving. -/
def peek (book : Phrasebook) (token : α → Token) (values : List α) : Reader (Option α) := do
  let c ← get
  let (missed, found) := book.first c.ahead token values
  set { c with tried := c.tried ++ missed }
  return found.map (·.1)

def take? (book : Phrasebook) (token : α → Token) (values : List α) : Reader (Option α) := do
  let c ← get
  match book.first c.ahead token values with
  | (_, some (value, rest)) =>
    set (⟨rest, []⟩ : Cursor)
    return some value
  | (missed, none) =>
    set { c with tried := c.tried ++ missed }
    return none

def unexpected (book : Phrasebook) : Reader Failure := do
  let c ← get
  return ⟨.unexpected (book.forms c.tried), c.ahead⟩

def take (book : Phrasebook) (token : α → Token) (values : List α) : Reader α := do
  match ← take? book token values with
  | some value => return value
  | none => throw (← unexpected book)

def accept (book : Phrasebook) (token : Token) : Reader Bool :=
  return (← take? book id [token]).isSome

def expect (book : Phrasebook) (token : Token) : Reader Unit := do
  let _ ← take book id [token]

def name (book : Phrasebook) : Reader String := do
  let text ← ahead
  if text = [] then
    fail .endOfText text
  else if book.isReserved (word text) then
    fail (.reserved (.ofList (word text))) text
  else
    set (⟨afterWord text, []⟩ : Cursor)
    return .ofList (word text)

def isQuote (c : Char) : Bool := c == '\x27' || c == '\x22' || c == '\x60'

/-- The contents of the quoted text that a text starts with, and what follows the closing quote. A
quote is closed by the next one of its kind. -/
def quoted? : List Char → Option (List Char × List Char)
  | [] => none
  | quote :: text =>
    if isQuote quote then
      match text.dropWhile (· != quote) with
      | [] => none
      | _ :: rest => some (text.takeWhile (· != quote), rest)
    else none

def quotation? : Reader (Option String) := do
  match quoted? (← ahead) with
  | some (contents, rest) =>
    set (⟨skipBlank rest, []⟩ : Cursor)
    return some (.ofList contents)
  | none => return none

/-- A part that comes only after its sign. -/
def optional (sign : Reader Bool) (part : Reader α) : Reader (Option α) := do
  if ← sign then
    return some (← part)
  else
    return none

/-- One item after each separator, in at most `limit` rounds. -/
def others (separator : Reader Bool) (item : Reader α) : Nat → Reader (List α)
  | 0 => do fail .stalled (← ahead)
  | limit + 1 => do
    if ← separator then
      let first ← item
      return first :: (← others separator item limit)
    else
      return []

/-- One item, and another after each separator. A round reads at least one character, or the text
has ended, so that there are rounds enough. -/
def separated (separator : Reader Bool) (item : Reader α) : Reader (List α) := do
  let first ← item
  return first :: (← others separator item ((← get).rest.length + 1))

end Reader

end Wordy
