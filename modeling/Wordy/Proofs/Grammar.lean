import Mathlib
import Wordy.Lexeme
import Wordy.Program.Read
import Wordy.Proofs.PhraseWords

/-! The grammar, apart from the readers. The lexemes of a program are given by rules over its syntax
tree, and the texts of a list of lexemes by rules over the list. Neither says how a text is read:
one text can spell several lists, of which the grammar admits at most one. -/

namespace Wordy

open Text

namespace Atom

/-- A minus sign or none, then digits, or a point with digits after it and perhaps before it. -/
def IsNumeral (word : List Char) : Prop :=
  ∃ sign whole fraction, word = sign ++ (whole ++ fraction) ∧ (sign = [] ∨ sign = ['-']) ∧
    (∀ c ∈ whole, c.isDigit = true) ∧
    (fraction = [] ∧ whole ≠ [] ∨
      ∃ digits, fraction = '.' :: digits ∧ digits ≠ [] ∧ ∀ c ∈ digits, c.isDigit = true)

theorem IsNumeral.mem {w : List Char} (h : IsNumeral w) :
    ∀ c ∈ w, c = '-' ∨ c = '.' ∨ c.isDigit = true := by
  obtain ⟨sign, whole, fraction, rfl, hs, hw, hf⟩ := h
  intro c hc
  rcases List.mem_append.mp hc with hc | hc
  · rcases hs with rfl | rfl
    · simp at hc
    · exact .inl (by simpa using hc)
  · rcases List.mem_append.mp hc with hc | hc
    · exact .inr (.inr (hw c hc))
    · rcases hf with ⟨rfl, -⟩ | ⟨digits, rfl, -, hd⟩
      · simp at hc
      · rcases List.mem_cons.mp hc with rfl | hc
        · simp
        · exact .inr (.inr (hd c hc))

/-- A letter, then letters, digits, low lines and hyphens. -/
def IsVariable (word : List Char) : Prop :=
  ∃ c more, word = c :: more ∧ c.isAlpha = true ∧
    ∀ d ∈ more, d.isAlphanum = true ∨ d = '_' ∨ d = '-'

inductive Written : Atom → Lexeme → Prop
  | number {w : String} (h : IsNumeral w.toList) : Written (.number w) (.word w)
  | text {contents : String} : Written (.text contents) (.quotation contents)
  | truth {value : Bool} : Written (.truth value) (.token (truthToken value))
  | reference {w : String} (h : IsVariable w.toList) : Written (.reference w) (.word w)

end Atom

namespace Expression

inductive Written : Expression → List Lexeme → Prop
  | atom {a : Atom} {l : Lexeme} (h : a.Written l) : Written (.atom a) [l]
  | negation {e : Expression} {ls : List Lexeme} (h : Written e ls) :
      Written (.negation e) (.token .notWord :: ls)
  | binary {a : Atom} {l : Lexeme} {operator : BinaryOperator} {e : Expression}
      {ls : List Lexeme} (ha : a.Written l) (h : Written e ls) :
      Written (.binary a operator e) (l :: .token operator.token :: ls)

/-- A whole expression of a program, which is bounded in its operators. -/
def Stated (e : Expression) (ls : List Lexeme) : Prop :=
  e.Written ls ∧ e.operators ≤ maxOperators

end Expression

section

variable {α : Type}

inductive Perhaps (shape : α → List Lexeme → Prop) : Option α → List Lexeme → Prop
  | none : Perhaps shape none []
  | some {a : α} {ls : List Lexeme} (h : shape a ls) : Perhaps shape (some a) ls

inductive Separated (separator : Token) (shape : α → List Lexeme → Prop) :
    List α → List Lexeme → Prop
  | one {a : α} {ls : List Lexeme} (h : shape a ls) : Separated separator shape [a] ls
  | more {a : α} {as : List α} {ls ms : List Lexeme} (h : shape a ls)
      (hs : Separated separator shape as ms) :
      Separated separator shape (a :: as) (ls ++ .token separator :: ms)

/-- No items, or the sign and then items with commas between them. -/
inductive Listed (sign : Token) (shape : α → List Lexeme → Prop) : List α → List Lexeme → Prop
  | none : Listed sign shape [] []
  | some {as : List α} {ls : List Lexeme} (h : Separated .comma shape as ls) :
      Listed sign shape as (.token sign :: ls)

end

inductive Ascription.Written : Ascription → List Lexeme → Prop
  | fixed {base : BaseType} : Written ⟨false, base⟩ [.token base.token]
  | mutable {base : BaseType} : Written ⟨true, base⟩ [.token .mutableWord, .token base.token]

inductive Expression.Initial : Expression → List Lexeme → Prop
  | equalTo {e : Expression} {ls : List Lexeme} (h : e.Stated ls) :
      Initial e (.token .equalTo :: ls)
  | initializedTo {e : Expression} {ls : List Lexeme} (h : e.Stated ls) :
      Initial e (.token .initializedTo :: ls)

/-- The place for the result of a call. -/
inductive ResultTarget : String → List Lexeme → Prop
  | mk {name : String} : ResultTarget name [.token .thenPutResultInto, .word name]

mutual

inductive Statement.Written : Statement → List Lexeme → Prop
  | declare {name : String} {ascription : Option Ascription} {value : Option Expression}
      {as vs : List Lexeme} (ha : Perhaps Ascription.Written ascription as)
      (hv : Perhaps Expression.Initial value vs) (h : ascription ≠ none ∨ value ≠ none) :
      Statement.Written (.declare name ascription value)
        (.token .defineVariable :: .word name :: .token .toBe :: (as ++ vs))
  | change {kind : Change} {target : String} {value : Expression} {vs : List Lexeme}
      (hv : value.Stated vs) :
      Statement.Written (.change kind target value)
        (.token kind.token :: .word target :: .token kind.connector :: vs)
  | print {value : Expression} {vs : List Lexeme} (hv : value.Stated vs) :
      Statement.Written (.print value) (.token .print :: vs)
  | conditional {branches : List Branch} {bs : List Lexeme} (hb : Branch.WrittenAll branches bs) :
      Statement.Written (.conditional branches none)
        (.token .ifWord :: (bs ++ [.token .endOfIf]))
  | conditionalOtherwise {branches : List Branch} {body : List Statement} {bs ss : List Lexeme}
      (hb : Branch.WrittenAll branches bs) (hs : Statement.WrittenAll body ss) :
      Statement.Written (.conditional branches (some body))
        (.token .ifWord :: (bs ++ .token .otherwise :: .token .doWord :: (ss ++ [.token .endOfIf])))
  | whileLoop {condition : Expression} {body : List Statement} {cs ss : List Lexeme}
      (hc : condition.Stated cs) (hs : Statement.WrittenAll body ss) :
      Statement.Written (.whileLoop condition body)
        (.token .whileWord :: (cs ++ .token .doWord :: (ss ++ [.token .endOfWhile])))
  | forLoop {iterator : String} {lower upper : Expression} {body : List Statement}
      {ls us ss : List Lexeme} (hl : lower.Stated ls) (hu : upper.Stated us)
      (hs : Statement.WrittenAll body ss) :
      Statement.Written (.forLoop iterator lower upper body)
        (.token .forWord :: .word iterator :: .token .fromWord :: (ls ++ .token .toWord ::
          (us ++ .token .doWord :: (ss ++ [.token .endOfFor]))))
  | call {function : String} {arguments : List Expression} {result : Option String}
      {as rs : List Lexeme} (ha : Listed .withArg Expression.Stated arguments as)
      (hr : Perhaps ResultTarget result rs) :
      Statement.Written (.call function arguments result)
        (.token .callFunction :: .word function :: (as ++ rs))
  | giveBack {value : Expression} {vs : List Lexeme} (hv : value.Stated vs) :
      Statement.Written (.giveBack value) (.token .returnWord :: vs)

inductive Statement.WrittenAll : List Statement → List Lexeme → Prop
  | nil : Statement.WrittenAll [] []
  | cons {s : Statement} {ss : List Statement} {ls ms : List Lexeme} (h : s.Written ls)
      (hs : Statement.WrittenAll ss ms) : Statement.WrittenAll (s :: ss) (ls ++ ms)

/-- The branches, without the token that opens the first one. -/
inductive Branch.WrittenAll : List Branch → List Lexeme → Prop
  | one {condition : Expression} {body : List Statement} {cs ss : List Lexeme}
      (hc : condition.Stated cs) (hs : Statement.WrittenAll body ss) :
      Branch.WrittenAll [⟨condition, body⟩] (cs ++ .token .doWord :: ss)
  | more {condition : Expression} {body : List Statement} {branches : List Branch}
      {cs ss bs : List Lexeme} (hc : condition.Stated cs) (hs : Statement.WrittenAll body ss)
      (hb : Branch.WrittenAll branches bs) :
      Branch.WrittenAll (⟨condition, body⟩ :: branches)
        (cs ++ .token .doWord :: (ss ++ .token .butIf :: bs))

end

inductive Parameter.Written : Parameter → List Lexeme → Prop
  | mk {name : String} {ascription : Ascription} {as : List Lexeme} (h : ascription.Written as) :
      Written ⟨name, ascription⟩ (.word name :: .token .asWord :: as)

inductive BaseType.Returned : BaseType → List Lexeme → Prop
  | mk {base : BaseType} : Returned base [.token .thatReturn, .token base.token]

inductive Function.Written : Function → List Lexeme → Prop
  | mk {name : String} {parameters : List Parameter} {returns : Option BaseType}
      {body : List Statement} {ps rs ss : List Lexeme}
      (hp : Listed .withParam Parameter.Written parameters ps)
      (hr : Perhaps BaseType.Returned returns rs) (hs : Statement.WrittenAll body ss) :
      Written ⟨name, parameters, returns, body⟩
        (.token .defineFunction :: .word name ::
          (ps ++ (rs ++ .token .doWord :: (ss ++ [.token .endOfFunction]))))

inductive Item.Written : Item → List Lexeme → Prop
  | function {f : Function} {ls : List Lexeme} (h : f.Written ls) : Written (.function f) ls
  | statement {s : Statement} {ls : List Lexeme} (h : s.Written ls) : Written (.statement s) ls

inductive Item.WrittenAll : List Item → List Lexeme → Prop
  | nil : WrittenAll [] []
  | cons {i : Item} {is : List Item} {ls ms : List Lexeme} (h : i.Written ls)
      (hs : WrittenAll is ms) : WrittenAll (i :: is) (ls ++ ms)

def Program.Written (p : Program) (ls : List Lexeme) : Prop := Item.WrittenAll p.items ls

/-- A phrase, given by its words: each letter in either case, and blanks between the words. -/
inductive Phrase.SpelledBy : List (List Char) → List Char → Prop
  | last {w v : List Char} (h : List.Forall₂ (fun x c => c = x ∨ c = x.toUpper) w v) :
      SpelledBy [w] v
  | more {w v gap s : List Char} {ws : List (List Char)}
      (h : List.Forall₂ (fun x c => c = x ∨ c = x.toUpper) w v) (hgap : Blank gap)
      (hne : gap ≠ []) (hs : SpelledBy ws s) : SpelledBy (w :: ws) (v ++ (gap ++ s))

/-- The texts of a list of lexemes, in the standard phrases. Blanks may stand before each lexeme and
at the end, and have to stand after each phrase and word that does not end the text. -/
inductive Lexeme.SpelledBy : List Lexeme → List Char → Prop
  | nil {gap : List Char} (hgap : Blank gap) : SpelledBy [] gap
  | token {t : Token} {ls : List Lexeme} {gap s rest : List Char} (hgap : Blank gap)
      (ht : t ∈ Token.spelled) (h : Phrase.SpelledBy (Phrase.words t.phrase.toList) s)
      (hb : Break rest) (hs : SpelledBy ls rest) : SpelledBy (.token t :: ls) (gap ++ (s ++ rest))
  | word {w : List Char} {ls : List Lexeme} {gap rest : List Char} (hgap : Blank gap)
      (hne : w ≠ []) (hw : Solid w) (hr : Phrasebook.standard.isReserved w = false)
      (hb : Break rest) (hs : SpelledBy ls rest) :
      SpelledBy (.word (.ofList w) :: ls) (gap ++ (w ++ rest))
  | quotation {quote : Char} {contents : List Char} {ls : List Lexeme} {gap rest : List Char}
      (hgap : Blank gap) (hq : Reader.isQuote quote = true) (hc : quote ∉ contents)
      (hs : SpelledBy ls rest) :
      SpelledBy (.quotation (.ofList contents) :: ls) (gap ++ (quote :: (contents ++ quote :: rest)))

/-- The text spells the program. -/
def Program.SpelledBy (p : Program) (text : List Char) : Prop :=
  ∃ ls, p.Written ls ∧ Lexeme.SpelledBy ls text

end Wordy
