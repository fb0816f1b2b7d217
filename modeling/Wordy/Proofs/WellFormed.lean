import Mathlib
import Wordy.Program.Equality
import Wordy.Proofs.ParsedForms

/-! Well-formed programs: those whose names, atoms and blocks could have been read. Everything that
is parsed is one, whatever the phrasebook, since the lexemes that were read are fit to be. -/

namespace Wordy

open Text

namespace Phrasebook

/-- A word that is read as a name under the phrasebook. -/
structure IsName (book : Phrasebook) (name : String) : Prop where
  ne_nil : name.toList ≠ []
  solid : Solid name.toList
  not_reserved : book.isReserved name.toList = false

end Phrasebook

def Atom.WellFormed (book : Phrasebook) : Atom → Prop
  | number digits => IsNumeral digits.toList ∧ book.isReserved digits.toList = false
  | text contents => ∃ quote, Reader.isQuote quote = true ∧ quote ∉ contents.toList
  | truth _ => True
  | reference name => IsVariable name.toList ∧ book.isReserved name.toList = false

def Expression.AtomsWellFormed (book : Phrasebook) : Expression → Prop
  | atom value => value.WellFormed book
  | negation operand => operand.AtomsWellFormed book
  | binary left _ right => left.WellFormed book ∧ right.AtomsWellFormed book

def Expression.WellFormed (book : Phrasebook) (e : Expression) : Prop :=
  e.operators ≤ maxOperators ∧ e.AtomsWellFormed book

mutual

def Statement.WellFormed (book : Phrasebook) : Statement → Prop
  | .declare name ascription value =>
    book.IsName name ∧ (ascription ≠ none ∨ value ≠ none) ∧ ∀ e ∈ value, e.WellFormed book
  | .change _ target value => book.IsName target ∧ value.WellFormed book
  | .print value => value.WellFormed book
  | .conditional branches none => branches ≠ [] ∧ Branch.WellFormedAll book branches
  | .conditional branches (some body) =>
    branches ≠ [] ∧ Branch.WellFormedAll book branches ∧ Statement.WellFormedAll book body
  | .whileLoop condition body => condition.WellFormed book ∧ Statement.WellFormedAll book body
  | .forLoop iterator lower upper body =>
    book.IsName iterator ∧ lower.WellFormed book ∧ upper.WellFormed book ∧
      Statement.WellFormedAll book body
  | .call function arguments result =>
    book.IsName function ∧ (∀ e ∈ arguments, e.WellFormed book) ∧ ∀ n ∈ result, book.IsName n
  | .giveBack value => value.WellFormed book

def Statement.WellFormedAll (book : Phrasebook) : List Statement → Prop
  | [] => True
  | statement :: statements =>
    statement.WellFormed book ∧ Statement.WellFormedAll book statements

def Branch.WellFormedAll (book : Phrasebook) : List Branch → Prop
  | [] => True
  | ⟨condition, body⟩ :: branches =>
    condition.WellFormed book ∧ Statement.WellFormedAll book body ∧
      Branch.WellFormedAll book branches

end

structure Function.WellFormed (book : Phrasebook) (f : Function) : Prop where
  name : book.IsName f.name
  parameters : ∀ p ∈ f.parameters, book.IsName p.name
  body : Statement.WellFormedAll book f.body

def Item.WellFormed (book : Phrasebook) : Item → Prop
  | function f => f.WellFormed book
  | statement s => s.WellFormed book

def Program.WellFormed (book : Phrasebook) (p : Program) : Prop :=
  ∀ item ∈ p.items, item.WellFormed book

/-- A lexeme that can have been read under the phrasebook. -/
def Lexeme.Fit (book : Phrasebook) : Lexeme → Prop
  | token _ => True
  | word w => book.IsName w
  | quotation contents => ∃ quote, Reader.isQuote quote = true ∧ quote ∉ contents.toList

variable {book : Phrasebook}

@[simp] theorem Lexeme.fit_token {t : Token} : (token t).Fit book := trivial

@[simp] theorem Lexeme.fit_word {w : String} : (word w).Fit book ↔ book.IsName w := Iff.rfl

theorem Lexeme.Next.fit {l : Lexeme} {text rest : List Char} (h : l.Next book text rest) :
    l.Fit book := by
  cases h with
  | token _ => trivial
  | word hne hr =>
    refine ⟨?_, ?_, ?_⟩
    · simpa using word_skipBlank_ne_nil hne
    · simpa using solid_word _
    · simpa using hr
  | quotation h =>
    obtain ⟨quote, hq, hc, -⟩ := Reader.quoted?_eq_some h
    exact ⟨quote, hq, by simpa using hc⟩

theorem Reads.fit {ls : List Lexeme} {text rest : List Char} (h : Reads book ls text rest) :
    ∀ l ∈ ls, l.Fit book := by
  induction h with
  | nil => simp
  | cons h _ ih => exact List.forall_mem_cons.mpr ⟨h.fit, ih⟩

theorem Atom.Written.wellFormed {a : Atom} {l : Lexeme} (h : a.Written l) (hl : l.Fit book) :
    a.WellFormed book := by
  cases h with
  | number h => exact ⟨h, hl.not_reserved⟩
  | text => exact hl
  | truth => trivial
  | reference h => exact ⟨h, hl.not_reserved⟩

theorem Expression.Written.atomsWellFormed {e : Expression} {ls : List Lexeme}
    (h : e.Written ls) (hl : ∀ l ∈ ls, l.Fit book) : e.AtomsWellFormed book := by
  induction h with
  | atom h => exact h.wellFormed (hl _ (by simp))
  | negation _ ih => exact ih fun l hm => hl l (by simp [hm])
  | binary ha _ ih => exact ⟨ha.wellFormed (hl _ (by simp)), ih fun l hm => hl l (by simp [hm])⟩

theorem Expression.Stated.wellFormed {e : Expression} {ls : List Lexeme} (h : e.Stated ls)
    (hl : ∀ l ∈ ls, l.Fit book) : e.WellFormed book :=
  ⟨h.2, h.1.atomsWellFormed hl⟩

theorem Separated.forall_mem {α : Type} {separator : Token} {shape : α → List Lexeme → Prop}
    {P : α → Prop} (hp : ∀ a ls, shape a ls → (∀ l ∈ ls, l.Fit book) → P a) {as : List α}
    {ls : List Lexeme} (h : Separated separator shape as ls) (hl : ∀ l ∈ ls, l.Fit book) :
    ∀ a ∈ as, P a := by
  induction h with
  | one h => simpa using hp _ _ h hl
  | more h _ ih =>
    rw [List.forall_mem_cons]
    exact ⟨hp _ _ h fun l hm => hl l (by simp [hm]), ih fun l hm => hl l (by simp [hm])⟩

theorem Listed.forall_mem {α : Type} {sign : Token} {shape : α → List Lexeme → Prop}
    {P : α → Prop} (hp : ∀ a ls, shape a ls → (∀ l ∈ ls, l.Fit book) → P a) {as : List α}
    {ls : List Lexeme} (h : Listed sign shape as ls) (hl : ∀ l ∈ ls, l.Fit book) :
    ∀ a ∈ as, P a := by
  cases h with
  | none => simp
  | some h => exact h.forall_mem hp fun l hm => hl l (by simp [hm])

theorem Perhaps.forall_mem {α : Type} {shape : α → List Lexeme → Prop} {P : α → Prop}
    (hp : ∀ a ls, shape a ls → (∀ l ∈ ls, l.Fit book) → P a) {a : Option α} {ls : List Lexeme}
    (h : Perhaps shape a ls) (hl : ∀ l ∈ ls, l.Fit book) : ∀ b ∈ a, P b := by
  cases h with
  | none => simp
  | some h => simpa using hp _ _ h hl

theorem Expression.Initial.wellFormed {e : Expression} {ls : List Lexeme} (h : e.Initial ls)
    (hl : ∀ l ∈ ls, l.Fit book) : e.WellFormed book := by
  cases h with
  | equalTo h => exact h.wellFormed fun l hm => hl l (by simp [hm])
  | initializedTo h => exact h.wellFormed fun l hm => hl l (by simp [hm])

theorem ResultTarget.isName {n : String} {ls : List Lexeme} (h : ResultTarget n ls)
    (hl : ∀ l ∈ ls, l.Fit book) : book.IsName n := by
  cases h
  exact hl (.word n) (by simp)

theorem Branch.WrittenAll.ne_nil {branches : List Branch} {ls : List Lexeme}
    (h : Branch.WrittenAll branches ls) : branches ≠ [] := by
  cases h <;> simp

mutual

theorem Statement.Written.wellFormed {s : Statement} {ls : List Lexeme} :
    s.Written ls → (∀ l ∈ ls, l.Fit book) → s.WellFormed book
  | .declare ha hv h, hl =>
    ⟨hl (.word _) (by simp), h, hv.forall_mem (fun _ _ => (·.wellFormed)) fun l hm =>
      hl l (by simp [hm])⟩
  | .change hv, hl => ⟨hl (.word _) (by simp), hv.wellFormed fun l hm => hl l (by simp [hm])⟩
  | .print hv, hl => hv.wellFormed fun l hm => hl l (by simp [hm])
  | .conditional hb, hl => ⟨hb.ne_nil, hb.wellFormed fun l hm => hl l (by simp [hm])⟩
  | .conditionalOtherwise hb hs, hl =>
    ⟨hb.ne_nil, hb.wellFormed fun l hm => hl l (by simp [hm]),
      hs.wellFormed fun l hm => hl l (by simp [hm])⟩
  | .whileLoop hc hs, hl =>
    ⟨hc.wellFormed fun l hm => hl l (by simp [hm]), hs.wellFormed fun l hm => hl l (by simp [hm])⟩
  | .forLoop hlow hup hs, hl =>
    ⟨hl (.word _) (by simp), hlow.wellFormed fun l hm => hl l (by simp [hm]),
      hup.wellFormed fun l hm => hl l (by simp [hm]),
      hs.wellFormed fun l hm => hl l (by simp [hm])⟩
  | .call ha hr, hl =>
    ⟨hl (.word _) (by simp),
      ha.forall_mem (fun _ _ => (·.wellFormed)) fun l hm => hl l (by simp [hm]),
      hr.forall_mem (fun _ _ => (·.isName)) fun l hm => hl l (by simp [hm])⟩
  | .giveBack hv, hl => hv.wellFormed fun l hm => hl l (by simp [hm])

theorem Statement.WrittenAll.wellFormed {ss : List Statement} {ls : List Lexeme} :
    Statement.WrittenAll ss ls → (∀ l ∈ ls, l.Fit book) → Statement.WellFormedAll book ss
  | .nil, _ => trivial
  | .cons h hs, hl =>
    ⟨h.wellFormed fun l hm => hl l (by simp [hm]), hs.wellFormed fun l hm => hl l (by simp [hm])⟩

theorem Branch.WrittenAll.wellFormed {bs : List Branch} {ls : List Lexeme} :
    Branch.WrittenAll bs ls → (∀ l ∈ ls, l.Fit book) → Branch.WellFormedAll book bs
  | .one hc hs, hl =>
    ⟨hc.wellFormed fun l hm => hl l (by simp [hm]), hs.wellFormed fun l hm => hl l (by simp [hm]),
      trivial⟩
  | .more hc hs hb, hl =>
    ⟨hc.wellFormed fun l hm => hl l (by simp [hm]), hs.wellFormed fun l hm => hl l (by simp [hm]),
      hb.wellFormed fun l hm => hl l (by simp [hm])⟩

end

theorem Function.Written.wellFormed {f : Function} {ls : List Lexeme} (h : f.Written ls)
    (hl : ∀ l ∈ ls, l.Fit book) : f.WellFormed book := by
  cases h with
  | mk hp hr hs =>
    refine ⟨hl (.word _) (by simp), ?_, hs.wellFormed fun l hm => hl l (by simp [hm])⟩
    refine hp.forall_mem (fun p ms hw hf => ?_) fun l hm => hl l (by simp [hm])
    cases hw
    exact hf (.word _) (by simp)

theorem Item.WrittenAll.wellFormed {items : List Item} {ls : List Lexeme}
    (h : Item.WrittenAll items ls) (hl : ∀ l ∈ ls, l.Fit book) :
    ∀ item ∈ items, item.WellFormed book := by
  induction h with
  | nil => simp
  | cons h _ ih =>
    rw [List.forall_mem_cons]
    refine ⟨?_, ih fun l hm => hl l (by simp [hm])⟩
    cases h with
    | function h => exact h.wellFormed fun l hm => hl l (by simp [hm])
    | statement h => exact h.wellFormed fun l hm => hl l (by simp [hm])

/-- Whatever is parsed, under any phrasebook, is well-formed at every depth. -/
theorem wellFormed_of_parseWith {source : String} {p : Program}
    (h : parseWith book source = .ok p) : p.WellFormed book := by
  obtain ⟨ls, rest, hw, hr, -⟩ := written_of_parseWith h
  exact Item.WrittenAll.wellFormed hw hr.fit

/-- A phrasebook beyond ASCII that spells one token twice and another one in capitals. -/
def umlautBook : Phrasebook :=
  ⟨[⟨"während", .whileWord⟩, ⟨"tue", .doWord⟩, ⟨"NICHT", .notWord⟩, ⟨"zeige", .print⟩,
    ⟨"gib aus", .print⟩, ⟨"fertig", .endOfWhile⟩]⟩

def umlautProgram : Program :=
  ⟨[.statement (.whileLoop (.atom (.reference "NICHT")) [.print (.atom (.text "it`s"))])]⟩

theorem wellFormed_of_parseWith_umlautBook :
    parseWith umlautBook "WÄHREND NICHT tue gib Aus 'it`s' fertig" = .ok umlautProgram ∧
      umlautProgram.WellFormed umlautBook :=
  have h : parseWith umlautBook "WÄHREND NICHT tue gib Aus 'it`s' fertig" = .ok umlautProgram := by
    decide +kernel
  ⟨h, wellFormed_of_parseWith h⟩

end Wordy
