import Wordy.Token

/-! The pieces that a line of source is made of, in their usual spelling. -/

namespace Wordy

inductive Lexeme
  | token (token : Token)
  | word (word : String)
  | quotation (contents : String)
deriving DecidableEq, Repr

/-- The first of the three quotes that the contents leave free. Contents that hold all three have no
spelling, and take the first. -/
def quoteFor (contents : List Char) : Char :=
  (['\x22', '\x27', '\x60'].find? (!contents.contains ·)).getD '\x22'

namespace Lexeme

def text : Lexeme → String
  | token t => t.phrase
  | word w => w
  | quotation contents =>
    let quote := quoteFor contents.toList
    .ofList (quote :: contents.toList ++ [quote])

def spaced (lexemes : List Lexeme) : String := " ".intercalate (lexemes.map text)

def commaSeparated : List (List Lexeme) → List Lexeme
  | [] => []
  | [last] => last
  | first :: others => first ++ token .comma :: commaSeparated others

end Lexeme

end Wordy
