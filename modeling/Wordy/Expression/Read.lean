import Wordy.Expression.Basic
import Wordy.Reader

/-! Reading an expression. The chain is read from the left as a list of links that wait for an
operand, and the expression is put together from the right once the last atom is known. -/

namespace Wordy

namespace Atom

def isNumber (word : List Char) : Bool :=
  let digits := if word.head? = some '-' then word.tail else word
  match digits.dropWhile Char.isDigit with
  | [] => digits ≠ []
  | '.' :: fraction => fraction ≠ [] && fraction.all Char.isDigit
  | _ => false

def isReference : List Char → Bool
  | [] => false
  | c :: word => c.isAlpha && word.all fun c => c.isAlphanum || c == '_' || c == '-'

/-- A word is a number, a reference or no atom at all. -/
def ofWord? (word : String) : Option Atom :=
  if isNumber word.toList then some (number word)
  else if isReference word.toList then some (reference word)
  else none

def readWord (book : Phrasebook) : Reader Atom := do
  let start ← Reader.ahead
  let word ← Reader.name book
  match ofWord? word with
  | some atom => return atom
  | none => Reader.fail (.noExpression word) start

def read (book : Phrasebook) : Reader Atom := do
  match ← Reader.take? book truthToken [true, false] with
  | some value => return truth value
  | none =>
    match ← Reader.quotation? with
    | some contents => return text contents
    | none => readWord book

end Atom

/-- A link of the chain: an operator with all but its last operand. -/
inductive Link
  | negation
  | operation (left : Atom) (operator : BinaryOperator)
deriving DecidableEq, Repr

namespace Link

def apply : Link → Expression → Expression
  | negation, operand => .negation operand
  | operation left operator, right => .binary left operator right

/-- Reads the next link, or the atom that ends the chain. -/
def read (book : Phrasebook) : Reader (Link ⊕ Atom) := do
  if ← Reader.accept book .notWord then
    return .inl .negation
  else
    let left ← Atom.read book
    match ← Reader.take? book BinaryOperator.token BinaryOperator.all with
    | some operator => return .inl (.operation left operator)
    | none => return .inr left

end Link

namespace Expression

/-- Reads a chain of at most `limit` links. One link more is a fault of the whole expression, which
starts at `start`. -/
def readChain (book : Phrasebook) (start : List Char) : Nat → Reader (List Link × Atom)
  | 0 => do
    match ← Link.read book with
    | .inl _ => Reader.fail .tooDeep start
    | .inr last => return ([], last)
  | limit + 1 => do
    match ← Link.read book with
    | .inl link =>
      let (links, last) ← readChain book start limit
      return (link :: links, last)
    | .inr last => return ([], last)

def ofChain (links : List Link) (last : Atom) : Expression :=
  links.foldr Link.apply (.atom last)

def read (book : Phrasebook) : Reader Expression := do
  let start ← Reader.ahead
  let (links, last) ← readChain book start maxOperators
  return ofChain links last

end Expression

end Wordy
