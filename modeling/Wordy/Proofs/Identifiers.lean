import Mathlib
import Wordy.Compiler
import Wordy.Proofs.Elements
import Wordy.Proofs.Grouping
import Wordy.Proofs.RoundTrip

/-! The identifiers of a script. Names are written as they stand, so that the identifiers that are
found in the script of a program are its names just where each of them is an identifier. -/

namespace Wordy

open Script

namespace Script

variable {letters : Letters} {text : List Char} {ns : List String} {c : Char} {s : List Char}
  {afterValue : Bool}

/-- The marks that close an expression in a script. -/
def closers : List Char := [';', ')', ',']

@[simp] theorem semicolon_mem_closers : ';' ∈ closers := by decide

@[simp] theorem parenthesis_mem_closers : ')' ∈ closers := by decide

@[simp] theorem comma_mem_closers : ',' ∈ closers := by decide

/-- The text holds these identifiers, up to the mark that closes it. -/
def Carries (letters : Letters) (text : List Char) (ns : List String) : Prop :=
  ∀ afterValue, ∀ c ∈ closers, ∀ s, identifiers? letters afterValue (text ++ c :: s) =
    (identifiers? letters false s).map (ns ++ ·)

theorem Carries.identifiers?_append (h : Carries letters text ns) (hc : c ∈ closers) :
    identifiers? letters afterValue (text ++ c :: s) =
      (identifiers? letters false s).map (ns ++ ·) :=
  h afterValue c hc s

theorem identifiers?_closer (h : c ∈ closers) :
    identifiers? letters afterValue (c :: s) = identifiers? letters false s :=
  identifiers?_mark ((by decide : closers ⊆ ['(', ')', '\x7b', '\x7d', ';', ',']) h)

theorem isPart_eq_false (h : c ∈ ' ' :: closers) : letters.isPart c = false := by
  simp only [closers, List.mem_cons, List.not_mem_nil, or_false] at h
  rcases h with rfl | rfl | rfl | rfl <;> simp [letters.isPart_ascii]

theorem endsNumeral_cons (h : c ∈ ' ' :: closers) : EndsNumeral letters (c :: s) := by
  intro d hd
  obtain rfl : c = d := by simpa using hd
  simp only [closers, List.mem_cons, List.not_mem_nil, or_false] at h
  rcases h with rfl | rfl | rfl | rfl <;> simp [letters.isStart_ascii]

theorem Letters.IsIdentifier.carries {name : String} (h : letters.IsIdentifier name) :
    Carries letters name.toList [name] := by
  intro v c hc s
  rw [identifiers?_identifier h (isPart_eq_false (List.mem_cons_of_mem _ hc)),
    identifiers?_closer hc]
  rfl

theorem carries_intercalate {α : Type} {f : α → String} {g : α → List String} {as : List α}
    (h : ∀ a ∈ as, Carries letters (f a).toList (g a)) :
    Carries letters (", ".intercalate (as.map f)).toList (as.flatMap g) := by
  intro v c hc s
  induction as generalizing v with
  | nil => simpa using identifiers?_closer hc
  | cons a as ih =>
    obtain ⟨ha, has⟩ := List.forall_mem_cons.mp h
    cases as with
    | nil => simpa using ha.identifiers?_append hc
    | cons b as =>
      have hlater := ih has false
      -- A comma closes each part but the last.
      have hcomma (t : List Char) : identifiers? letters v ((f a).toList ++ (", ".toList ++ t)) =
          (identifiers? letters false t).map (g a ++ ·) := by
        have hclose := ha v ',' (by decide) (' ' :: t)
        rw [identifiers?_blank (.inl rfl)] at hclose
        simpa using hclose
      simp only [List.map_cons] at hlater ⊢
      simp only [String.intercalate_cons_cons, String.toList_append, List.append_assoc]
      rw [hcomma, hlater]
      simp [Function.comp_def]

theorem identifiers?_keyword_blank {w : String}
    (h : w ∈ ["var", "if", "else", "while", "for", "return", "function"]) :
    identifiers? letters afterValue (w.toList ++ ' ' :: s) = identifiers? letters false s := by
  have hall : (["var", "if", "else", "while", "for", "return", "function"].all fun w =>
      decide (w ∈ reservedWords) && !(Element.keyword w).endsValue) = true := by decide +kernel
  have hw := List.all_eq_true.mp hall w h
  simp only [Bool.and_eq_true, decide_eq_true_eq, Bool.not_eq_true'] at hw
  rw [identifiers?_keyword hw.1 (isPart_eq_false (by decide)), hw.2, identifiers?_blank (.inl rfl)]

@[simp] theorem identifiers?_var :
    identifiers? letters afterValue ('v' :: 'a' :: 'r' :: ' ' :: s) =
      identifiers? letters false s := by
  simpa using identifiers?_keyword_blank (w := "var") (s := s) (by decide)

@[simp] theorem identifiers?_if :
    identifiers? letters afterValue ('i' :: 'f' :: ' ' :: s) = identifiers? letters false s := by
  simpa using identifiers?_keyword_blank (w := "if") (s := s) (by decide)

@[simp] theorem identifiers?_else :
    identifiers? letters afterValue ('e' :: 'l' :: 's' :: 'e' :: ' ' :: s) =
      identifiers? letters false s := by
  simpa using identifiers?_keyword_blank (w := "else") (s := s) (by decide)

@[simp] theorem identifiers?_while :
    identifiers? letters afterValue ('w' :: 'h' :: 'i' :: 'l' :: 'e' :: ' ' :: s) =
      identifiers? letters false s := by
  simpa using identifiers?_keyword_blank (w := "while") (s := s) (by decide)

@[simp] theorem identifiers?_for :
    identifiers? letters afterValue ('f' :: 'o' :: 'r' :: ' ' :: s) =
      identifiers? letters false s := by
  simpa using identifiers?_keyword_blank (w := "for") (s := s) (by decide)

@[simp] theorem identifiers?_return :
    identifiers? letters afterValue ('r' :: 'e' :: 't' :: 'u' :: 'r' :: 'n' :: ' ' :: s) =
      identifiers? letters false s := by
  simpa using identifiers?_keyword_blank (w := "return") (s := s) (by decide)

@[simp] theorem identifiers?_function :
    identifiers? letters afterValue
        ('f' :: 'u' :: 'n' :: 'c' :: 't' :: 'i' :: 'o' :: 'n' :: ' ' :: s) =
      identifiers? letters false s := by
  simpa using identifiers?_keyword_blank (w := "function") (s := s) (by decide)

@[simp] theorem identifiers?_equals :
    identifiers? letters true ('=' :: ' ' :: s) = identifiers? letters false s := by
  simpa using identifiers?_symbol (s := s) (by decide : "=" ∈ spacedSymbols)

@[simp] theorem identifiers?_atMost :
    identifiers? letters true ('<' :: '=' :: ' ' :: s) = identifiers? letters false s := by
  simpa using identifiers?_symbol (s := s) (by decide : "<=" ∈ spacedSymbols)

@[simp] theorem identifiers?_increment :
    identifiers? letters true ('+' :: '+' :: ')' :: s) = identifiers? letters false s := by
  have he : element? letters true ('+' :: '+' :: ')' :: s) = some (.punctuator "++", ')' :: s) := by
    simp [element?, letters.isStart_ascii, startsNumeral, opensComment, punctuators, beginsWith]
  rw [identifiers?_punctuator (by decide) (by decide) he, identifiers?_mark (by decide)]

@[simp] theorem identifiers?_print :
    identifiers? letters afterValue
        ('V' :: 'M' :: '.' :: 'p' :: 'r' :: 'i' :: 'n' :: 't' :: '(' :: s) =
      (identifiers? letters false s).map (["VM", "print"] ++ ·) := by
  have he : element? letters true ('.' :: 'p' :: 'r' :: 'i' :: 'n' :: 't' :: '(' :: s) =
      some (.punctuator ".", 'p' :: 'r' :: 'i' :: 'n' :: 't' :: '(' :: s) := by
    simp [element?, letters.isStart_ascii, startsNumeral, opensComment, punctuators, beginsWith]
  have hhost : letters.IsIdentifier "VM" :=
    ⟨isWord_of_isAlpha (by decide) (by simp), by decide⟩
  have hmethod : letters.IsIdentifier "print" :=
    ⟨isWord_of_isAlpha (by decide) (by simp), by decide⟩
  have hvm : identifiers? letters afterValue
      ("VM".toList ++ '.' :: 'p' :: 'r' :: 'i' :: 'n' :: 't' :: '(' :: s) =
        (identifiers? letters true ('.' :: 'p' :: 'r' :: 'i' :: 'n' :: 't' :: '(' :: s)).map
          ("VM" :: ·) := identifiers?_identifier hhost (by simp [letters.isPart_ascii])
  have hprint : identifiers? letters false ("print".toList ++ '(' :: s) =
      (identifiers? letters true ('(' :: s)).map ("print" :: ·) :=
    identifiers?_identifier hmethod (by simp [letters.isPart_ascii])
  rw [identifiers?_punctuator (by decide) (by decide) he] at hvm
  simp only [String.reduceToList, List.cons_append, List.nil_append] at hvm hprint
  rw [hvm, hprint, identifiers?_mark (by decide), Option.map_map]
  rfl

/-- The identifiers in the lines, however deep they stand. -/
inductive Named (letters : Letters) : List Line → List String → Prop
  | nil : Named letters [] []
  | cons {l : Line} {ls : List Line} {ns ms : List String}
      (h : ∀ s, identifiers? letters false (l.text.toList ++ '\n' :: s) =
        (identifiers? letters false s).map (ns ++ ·)) (hs : Named letters ls ms) :
      Named letters (l :: ls) (ns ++ ms)

namespace Named

variable {l : Line} {ls ms : List Line} {ns os : List String}

theorem single (h : ∀ s, identifiers? letters false (l.text.toList ++ '\n' :: s) =
    (identifiers? letters false s).map (ns ++ ·)) : Named letters [l] ns := by
  simpa using Named.cons h .nil

theorem append (h : Named letters ls ns) (hm : Named letters ms os) :
    Named letters (ls ++ ms) (ns ++ os) := by
  induction h with
  | nil => exact hm
  | cons h _ ih => simpa using Named.cons h ih

theorem block (h : Named letters ls ns) : Named letters (block ls) ns := by
  induction h with
  | nil => exact .nil
  | cons h _ ih => exact .cons h ih

theorem identifiers?_layout (h : Named letters ls ns) :
    identifiers? letters false (layout "\t" ls).toList = some ns := by
  induction h with
  | nil => simp [layout]
  | cons h _ ih =>
    have htab (s : List Char) :
        identifiers? letters false ("\t".toList ++ s) = identifiers? letters false s := by simp
    rw [toList_layout_cons, skip_indentation htab, h, ih]
    rfl

end Named

theorem named_closing : Named letters [line "\x7d"] [] := .single fun s => by simp [line]

end Script

def Atom.references : Atom → List String
  | reference name => [name]
  | _ => []

namespace Expression

def references (e : Expression) : List String := e.atoms.flatMap Atom.references

@[simp] theorem references_atom (a : Atom) : (atom a).references = a.references := by
  simp [references, atoms]

@[simp] theorem references_binary (l : Atom) (o : BinaryOperator) (r : Expression) :
    (binary l o r).references = l.references ++ r.references := rfl

end Expression

variable {letters : Letters} {book : Phrasebook} {afterValue : Bool} {c : Char} {s : List Char}

theorem Atom.identifiers?_append {a : Atom} (h : a.WellFormed book)
    (hn : ∀ n ∈ a.references, letters.IsIdentifier n) (hc : c ∈ ' ' :: closers) :
    identifiers? letters afterValue (a.javascript.toList ++ c :: s) =
      (identifiers? letters true (c :: s)).map (a.references ++ ·) := by
  have hpart : letters.isPart c = false := isPart_eq_false hc
  cases a with
  | number digits =>
    simpa [references, javascript] using identifiers?_isNumeral h.1 (endsNumeral_cons hc)
  | text contents => simpa [references, javascript] using identifiers?_quote contents
  | truth value =>
    cases value
    · simpa [references, javascript, Element.endsValue] using
        identifiers?_keyword (by decide : "false" ∈ reservedWords) hpart
    · simpa [references, javascript, Element.endsValue] using
        identifiers?_keyword (by decide : "true" ∈ reservedWords) hpart
  | reference name => exact identifiers?_identifier (hn name (by simp [references])) hpart

theorem Atom.exists_head {a : Atom} (h : a.WellFormed book)
    (hn : ∀ n ∈ a.references, letters.IsIdentifier n) :
    ∃ d rest, a.javascript.toList = d :: rest ∧ d ≠ '=' := by
  cases a with
  | number digits =>
    have hnumeral : IsNumeral digits.toList := h.1
    obtain ⟨d, hd, -⟩ := hnumeral.exists_digit
    obtain ⟨c, rest, hdigits⟩ := List.exists_cons_of_ne_nil (List.ne_nil_of_mem hd)
    refine ⟨c, rest, hdigits, ?_⟩
    rintro rfl
    have hmem := hnumeral.mem '=' (by simp [hdigits])
    simp at hmem
  | text contents => exact ⟨'\x22', _, by simp [javascript, Text.quote]; rfl, by decide⟩
  | truth value =>
    cases value
    · exact ⟨'f', "alse".toList, by simp [javascript], by decide⟩
    · exact ⟨'t', "rue".toList, by simp [javascript], by decide⟩
  | reference name =>
    obtain ⟨d, rest, hname, hstart, -⟩ := (hn name (by simp [references])).isWord
    refine ⟨d, rest, hname, ?_⟩
    rintro rfl
    simp [letters.isStart_ascii] at hstart

namespace Expression

theorem exists_head_parenthesized {e : Expression} (h : e.AtomsWellFormed book)
    (hn : ∀ n ∈ e.references, letters.IsIdentifier n) :
    ∃ d rest, (parenthesized e.isOperation e.javascript).toList = d :: rest ∧ d ≠ '=' := by
  cases e with
  | atom a => exact Atom.exists_head h (by simpa using hn)
  | negation e => exact ⟨'(', _, by simp [parenthesized, isOperation]; rfl, by decide⟩
  | binary l o r => exact ⟨'(', _, by simp [parenthesized, isOperation]; rfl, by decide⟩

theorem carries_parenthesized {e : Expression}
    (h : Carries letters e.javascript.toList e.references) :
    Carries letters (parenthesized e.isOperation e.javascript).toList e.references := by
  intro v c hc s
  rw [toList_parenthesized]
  split
  · rw [identifiers?_mark (by decide), h.identifiers?_append (by decide), identifiers?_closer hc]
  · exact h.identifiers?_append hc

theorem carries_javascript {e : Expression} (h : e.AtomsWellFormed book)
    (hn : ∀ n ∈ e.references, letters.IsIdentifier n) :
    Carries letters e.javascript.toList e.references := by
  induction e with
  | atom a =>
    intro v c hc s
    have ha : identifiers? letters v (a.javascript.toList ++ c :: s) =
        (identifiers? letters true (c :: s)).map (a.references ++ ·) :=
      Atom.identifiers?_append h (by simpa using hn) (List.mem_cons_of_mem _ hc)
    rw [identifiers?_closer hc] at ha
    simpa [javascript] using ha
  | negation e ih =>
    intro v c hc s
    -- Before an equals sign the negation would be part of another punctuator.
    obtain ⟨d, rest, htext, hd⟩ := exists_head_parenthesized (e := e) h hn
    have hoperand := carries_parenthesized (ih h hn) false c hc s
    rw [htext, List.cons_append] at hoperand
    rw [toList_negation, htext, List.cons_append, identifiers?_bang hd, hoperand]
    rfl
  | binary l o r ih =>
    intro v c hc s
    obtain ⟨hl, hr⟩ : (∀ n ∈ l.references, letters.IsIdentifier n) ∧
        ∀ n ∈ r.references, letters.IsIdentifier n := by
      simpa [or_imp, forall_and] using hn
    have hsymbol : o.symbol ∈ spacedSymbols := by cases o <;> decide
    have hoperand := carries_parenthesized (ih h.2 hr) false c hc s
    rw [toList_binary, Atom.identifiers?_append h.1 hl (by decide),
      identifiers?_blank (.inl rfl), identifiers?_symbol hsymbol, hoperand]
    simp [Function.comp_def]

theorem carries_arguments {arguments : List Expression} (h : ∀ e ∈ arguments, e.WellFormed book)
    (hn : ∀ n ∈ arguments.flatMap references, letters.IsIdentifier n) :
    Carries letters (", ".intercalate (arguments.map javascript)).toList
      (arguments.flatMap references) :=
  carries_intercalate fun e he =>
    carries_javascript (h e he).2 fun n hm => hn n (List.mem_flatMap.mpr ⟨e, he, hm⟩)

end Expression

mutual

/-- The names of a statement, in the order of its script. -/
def Statement.identifiers : Statement → List String
  | .declare name _ none => [name]
  | .declare name _ (some value) => name :: value.references
  | .change _ target value => target :: value.references
  | .print value => "VM" :: "print" :: value.references
  | .conditional branches none => Branch.identifiers branches
  | .conditional branches (some body) =>
    Branch.identifiers branches ++ Statement.identifiersAll body
  | .whileLoop condition body => condition.references ++ Statement.identifiersAll body
  | .forLoop iterator lower upper body =>
    iterator :: (lower.references ++ iterator :: (upper.references ++
      iterator :: Statement.identifiersAll body))
  | .call function arguments none => function :: arguments.flatMap Expression.references
  | .call function arguments (some result) =>
    result :: function :: arguments.flatMap Expression.references
  | .giveBack value => value.references

def Statement.identifiersAll : List Statement → List String
  | [] => []
  | statement :: statements => statement.identifiers ++ Statement.identifiersAll statements

def Branch.identifiers : List Branch → List String
  | [] => []
  | ⟨condition, body⟩ :: branches =>
    condition.references ++ (Statement.identifiersAll body ++ Branch.identifiers branches)

end

mutual

theorem Statement.named : (s : Statement) → s.WellFormed book →
    (∀ n ∈ s.identifiers, letters.IsIdentifier n) → Named letters s.javascript s.identifiers
  | .declare name _ none, _, hn => .single fun s => by
    have hname := hn name (by simp [Statement.identifiers])
    simp [line, Statement.identifiers, identifiers?_identifier hname, letters.isPart_ascii]
  | .declare name _ (some value), ⟨_, _, hv⟩, hn => .single fun s => by
    simp only [Statement.identifiers, List.forall_mem_cons] at hn
    have hvalue := Expression.carries_javascript (hv value rfl).2 hn.2
    simp [line, Statement.identifiers, identifiers?_identifier hn.1, letters.isPart_ascii,
      hvalue.identifiers?_append, Function.comp_def]
  | .change kind target value, ⟨_, hv⟩, hn => .single fun s => by
    simp only [Statement.identifiers, List.forall_mem_cons] at hn
    have hvalue := Expression.carries_javascript hv.2 hn.2
    have hsymbol : kind.symbol ∈ spacedSymbols := by cases kind <;> decide
    simp [line, Statement.identifiers, identifiers?_identifier hn.1, letters.isPart_ascii,
      identifiers?_symbol hsymbol, hvalue.identifiers?_append, Function.comp_def]
  | .print value, hv, hn => .single fun s => by
    simp only [Statement.identifiers, List.forall_mem_cons] at hn
    have hvalue := Expression.carries_javascript hv.2 hn.2.2
    simp [line, Statement.identifiers, hvalue.identifiers?_append, Function.comp_def]
  | .conditional branches none, ⟨_, hb⟩, hn => by
    have hbranches := Branch.named branches hb hn "if (" (by simp)
    simpa [Statement.javascript, Statement.identifiers] using hbranches.append named_closing
  | .conditional branches (some body), ⟨_, hb, hs⟩, hn => by
    simp only [Statement.identifiers, List.forall_mem_append] at hn
    have hbranches := Branch.named branches hb hn.1 "if (" (by simp)
    have hbody := Statement.namedAll body hs hn.2
    have hotherwise : Named letters [line "\x7d else \x7b"] [] := .single fun s => by simp [line]
    simpa [Statement.javascript, Statement.identifiers] using
      hbranches.append (hotherwise.append (hbody.block.append named_closing))
  | .whileLoop condition body, ⟨hc, hs⟩, hn => by
    simp only [Statement.identifiers, List.forall_mem_append] at hn
    have hcondition := Expression.carries_javascript hc.2 hn.1
    have hbody := Statement.namedAll body hs hn.2
    have hopening : Named letters [line ("while (" ++ condition.javascript ++ ") \x7b")]
        condition.references :=
      .single fun s => by simp [line, hcondition.identifiers?_append]
    simpa [Statement.javascript, Statement.identifiers] using
      hopening.append (hbody.block.append named_closing)
  | .forLoop iterator lower upper body, ⟨_, hl, hu, hs⟩, hn => by
    simp only [Statement.identifiers, List.forall_mem_cons, List.forall_mem_append] at hn
    obtain ⟨hi, hlow, -, hup, -, hin⟩ := hn
    have hlower := Expression.carries_javascript hl.2 hlow
    have hupper := Expression.carries_javascript hu.2 hup
    have hbody := Statement.namedAll body hs hin
    have hopening : Named letters [line ("for (var " ++ iterator ++ " = " ++ lower.javascript ++
        "; " ++ iterator ++ " <= " ++ upper.javascript ++ "; " ++ iterator ++ "++) \x7b")]
        (iterator :: (lower.references ++ iterator :: (upper.references ++ [iterator]))) :=
      .single fun s => by
        simp [line, identifiers?_identifier hi, letters.isPart_ascii, hlower.identifiers?_append,
          hupper.identifiers?_append, Function.comp_def]
    simpa [Statement.javascript, Statement.identifiers] using
      hopening.append (hbody.block.append named_closing)
  | .call function arguments none, ⟨_, ha, _⟩, hn => .single fun s => by
    simp only [Statement.identifiers, List.forall_mem_cons] at hn
    have harguments := Expression.carries_arguments ha hn.2
    simp [-String.toList_intercalate, line, Statement.identifiers, identifiers?_identifier hn.1,
      letters.isPart_ascii, harguments.identifiers?_append, Function.comp_def]
  | .call function arguments (some result), ⟨_, ha, _⟩, hn => .single fun s => by
    simp only [Statement.identifiers, List.forall_mem_cons] at hn
    have harguments := Expression.carries_arguments ha hn.2.2
    simp [-String.toList_intercalate, line, Statement.identifiers, identifiers?_identifier hn.1,
      identifiers?_identifier hn.2.1, letters.isPart_ascii, harguments.identifiers?_append,
      Function.comp_def]
  | .giveBack value, hv, hn => .single fun s => by
    have hvalue := Expression.carries_javascript hv.2 hn
    simp [line, Statement.identifiers, hvalue.identifiers?_append]

theorem Statement.namedAll : (ss : List Statement) → Statement.WellFormedAll book ss →
    (∀ n ∈ Statement.identifiersAll ss, letters.IsIdentifier n) →
      Named letters (Statement.javascriptAll ss) (Statement.identifiersAll ss)
  | [], _, _ => .nil
  | s :: ss, ⟨h, hs⟩, hn => by
    simp only [Statement.identifiersAll, List.forall_mem_append] at hn
    exact (Statement.named s h hn.1).append (Statement.namedAll ss hs hn.2)

theorem Branch.named : (bs : List Branch) → Branch.WellFormedAll book bs →
    (∀ n ∈ Branch.identifiers bs, letters.IsIdentifier n) → (opening : String) →
      (∀ s, identifiers? letters false (opening.toList ++ s) = identifiers? letters false s) →
      Named letters (Branch.javascript opening bs) (Branch.identifiers bs)
  | [], _, _, _, _ => .nil
  | ⟨condition, body⟩ :: bs, ⟨hc, hs, hb⟩, hn, opening, ho => by
    simp only [Branch.identifiers, List.forall_mem_append] at hn
    have hcondition := Expression.carries_javascript hc.2 hn.1
    have hbody := Statement.namedAll body hs hn.2.1
    have hbranches := Branch.named bs hb hn.2.2 "\x7d else if (" (by simp)
    have hopening : Named letters [line (opening ++ condition.javascript ++ ") \x7b")]
        condition.references :=
      .single fun s => by simp [line, ho, hcondition.identifiers?_append]
    simpa [Branch.javascript, Branch.identifiers] using
      hopening.append (hbody.block.append hbranches)

end

def Function.identifiers (f : Function) : List String :=
  f.name :: (f.parameters.map (·.name) ++ Statement.identifiersAll f.body)

def Item.identifiers : Item → List String
  | function f => f.identifiers
  | statement s => s.identifiers

def Program.identifiers (p : Program) : List String := p.items.flatMap Item.identifiers

theorem Function.named {f : Function} (h : f.WellFormed book)
    (hn : ∀ n ∈ f.identifiers, letters.IsIdentifier n) :
    Named letters f.javascript f.identifiers := by
  simp only [identifiers, List.forall_mem_cons, List.forall_mem_append] at hn
  obtain ⟨hname, hparameters, hin⟩ := hn
  have hbody := Statement.namedAll f.body h.body hin
  have hlist : Carries letters (", ".intercalate (f.parameters.map (·.name))).toList
      (f.parameters.map (·.name)) := by
    have hnames := carries_intercalate (f := Parameter.name) (g := fun p => [p.name]) fun p hp =>
      (hparameters p.name (List.mem_map_of_mem hp)).carries
    rwa [← List.map_eq_flatMap] at hnames
  have hopening : Named letters [line ("function " ++ f.name ++ " (" ++
      ", ".intercalate (f.parameters.map (·.name)) ++ ") \x7b")]
      (f.name :: f.parameters.map (·.name)) :=
    .single fun s => by
      simp [-String.toList_intercalate, line, identifiers?_identifier hname, letters.isPart_ascii,
        hlist.identifiers?_append, Function.comp_def]
  simpa [javascript, identifiers] using hopening.append (hbody.block.append named_closing)

theorem Item.named {item : Item} (h : item.WellFormed book)
    (hn : ∀ n ∈ item.identifiers, letters.IsIdentifier n) :
    Named letters item.javascript item.identifiers := by
  cases item with
  | function f => exact Function.named h hn
  | statement s => exact Statement.named s h hn

theorem Item.namedAll {items : List Item} (h : ∀ item ∈ items, item.WellFormed book)
    (hn : ∀ n ∈ items.flatMap identifiers, letters.IsIdentifier n) :
    Named letters (items.flatMap javascript) (items.flatMap identifiers) := by
  induction items with
  | nil => exact .nil
  | cons item items ih =>
    obtain ⟨hitem, hitems⟩ := List.forall_mem_cons.mp h
    simp only [List.flatMap_cons, List.forall_mem_append] at hn ⊢
    exact (Item.named hitem hn.1).append (ih hitems hn.2)

/-- Where a name is no identifier, something else is found, since only identifiers are found. -/
theorem identifiers?_javascript_iff {p : Program} (h : p.WellFormed book) :
    identifiers? letters false p.javascript.toList = some p.identifiers ↔
      ∀ n ∈ p.identifiers, letters.IsIdentifier n :=
  ⟨isIdentifier_of_identifiers?, fun hn => (Item.namedAll h hn).identifiers?_layout⟩

/-- The script of a source is read as these identifiers, in this order and in this spelling, just
where all of its names are identifiers. -/
theorem identifiers?_of_compile (letters : Letters) {source script : String}
    (h : compile source .javascript = .ok script) :
    ∃ p, parse source = .ok p ∧
      (identifiers? letters false script.toList = some p.identifiers ↔
        ∀ n ∈ p.identifiers, letters.IsIdentifier n) := by
  cases hp : parse source with
  | error d => simp [compile, hp, Except.map] at h
  | ok p =>
    obtain rfl : p.javascript = script := by simpa [compile, hp, Except.map, Target.render] using h
    obtain ⟨ls, rest, hw, hr, -⟩ := written_of_parseWith hp
    exact ⟨p, rfl, identifiers?_javascript_iff (Item.WrittenAll.wellFormed hw hr.fit)⟩

def isAsciiStart (c : Char) : Bool := c.isAlpha || c == '_' || c == '$'

def isAsciiPart (c : Char) : Bool := c.isAlphanum || c == '_' || c == '$'

theorem isAsciiPart_of_isAsciiStart (h : isAsciiStart c = true) : isAsciiPart c = true := by
  simp only [isAsciiStart, isAsciiPart, Char.isAlphanum, Bool.or_eq_true] at h ⊢
  tauto

theorem isSpace_of_isAsciiPart (h : isAsciiPart c = true) : isSpace c = false := by
  have hascii : 32 < c.toNat ∧ c.toNat < 128 := by
    simp only [isAsciiPart, Char.isAlphanum, Bool.or_eq_true, beq_iff_eq] at h
    rcases h with ((h | h) | rfl) | rfl
    · have hletter := toNat_of_isAlpha h
      omega
    · have hdigit := toNat_of_isDigit h
      omega
    · decide
    · decide
  exact isSpace_eq_false hascii.1 hascii.2

/-- The characters of identifiers without those beyond ASCII. -/
def asciiLetters : Letters where
  isStart := isAsciiStart
  isPart := isAsciiPart
  isStart_ascii _ _ := rfl
  isPart_ascii _ _ := rfl
  isPart_of_isStart _ := isAsciiPart_of_isAsciiStart
  isSpace_of_isPart _ := isSpace_of_isAsciiPart

theorem identifiers?_of_compile_call :
    ∃ p, parse "call function f with arg x1 then put result into $y" = .ok p ∧
      (identifiers? asciiLetters false "$y = f(x1);\n".toList = some p.identifiers ↔
        ∀ n ∈ p.identifiers, asciiLetters.IsIdentifier n) :=
  have h : compile "call function f with arg x1 then put result into $y" .javascript =
      .ok "$y = f(x1);\n" := by decide +kernel
  identifiers?_of_compile asciiLetters h

/-- The hyphen of a name is read as a subtraction. -/
theorem splits_hyphenated_name :
    parse "set a-b to be 1" = .ok ⟨[.statement (.change .assign "a-b" (.atom (.number "1")))]⟩ ∧
      compile "set a-b to be 1" .javascript = .ok "a-b = 1;\n" ∧
      elements? asciiLetters false "a-b = 1;\n".toList =
        some [.identifier "a", .punctuator "-", .identifier "b", .punctuator "=", .numeral,
          .punctuator ";"] := by
  decide +kernel

end Wordy
