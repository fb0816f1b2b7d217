import Wordy.Phrase
import Wordy.Token

/-! The phrases that spell the tokens, and the words that are therefore no names. -/

namespace Wordy

structure Spelling where
  phrase : String
  token : Token
deriving DecidableEq, Repr

/-- Of two spellings of one token the later one is read; the phrases of both are reserved. -/
structure Phrasebook where
  spellings : List Spelling
deriving DecidableEq, Repr

namespace Phrasebook

def standard : Phrasebook := ⟨Token.spelled.map fun token => ⟨token.phrase, token⟩⟩

def phrase? (book : Phrasebook) (token : Token) : Option String :=
  (book.spellings.reverse.find? (·.token == token)).map (·.phrase)

def isReserved (book : Phrasebook) (word : List Char) : Bool :=
  book.spellings.any (·.phrase.toList == Text.lowercase word)

def form (book : Phrasebook) (token : Token) : String :=
  if token = .endOfInput then token.phrase else (book.phrase? token).getD token.name

/-- The text after the token, for a text that starts with it and not with a blank. -/
def after? (book : Phrasebook) (token : Token) (text : List Char) : Option (List Char) :=
  if token = .endOfInput then
    if text = [] then some [] else none
  else
    match book.phrase? token with
    | some phrase => Phrase.after? phrase.toList text
    | none => none

/-- The first value whose token the text starts with and the text after it, beside the tokens that
were tried before it. -/
def first (book : Phrasebook) (text : List Char) {α : Type} (token : α → Token) :
    List α → List Token × Option (α × List Char)
  | [] => ([], none)
  | value :: values =>
    match book.after? (token value) text with
    | some rest => ([], some (value, rest))
    | none =>
      let (missed, found) := book.first text token values
      (token value :: missed, found)

def insertForm (text : String) : List String → List String
  | [] => [text]
  | form :: forms =>
    if text < form then text :: form :: forms
    else if text = form then form :: forms
    else form :: insertForm text forms

/-- The forms of the tokens in increasing order, each once. -/
def forms (book : Phrasebook) (tokens : List Token) : List String :=
  tokens.foldr (fun token forms => insertForm (book.form token) forms) []

theorem mem_insertForm {form text : String} {forms : List String} :
    form ∈ insertForm text forms ↔ form = text ∨ form ∈ forms := by
  induction forms with
  | nil => simp [insertForm]
  | cons head forms ih =>
    simp only [insertForm]
    split
    · simp
    · split
      · next h => subst h; simp
      · simp only [List.mem_cons, ih]
        grind

theorem mem_forms {book : Phrasebook} {form : String} {tokens : List Token} :
    form ∈ book.forms tokens ↔ ∃ token ∈ tokens, book.form token = form := by
  induction tokens with
  | nil => simp [forms]
  | cons token tokens ih =>
    simp only [forms, List.foldr_cons, mem_insertForm, List.mem_cons, exists_eq_or_imp]
    rw [← ih]
    simp only [forms, eq_comm]

end Phrasebook

end Wordy
