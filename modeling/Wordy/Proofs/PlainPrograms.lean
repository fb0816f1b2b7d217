import Mathlib
import Wordy.Javascript
import Wordy.Proofs.Pieces
import Wordy.Proofs.RoundTrip

/-! The scripts of plain programs, piece by piece. A program is plain if each of its names could be
read as a reference and each of its numbers as a numeral; on its texts there is no condition. Its
script is cut into the pieces that its syntax tree spells. -/

namespace Wordy

open Script Script.Piece

/-- A name that could be read as a reference. -/
structure PlainName (name : String) : Prop where
  isVariable : Atom.IsVariable name.toList
  not_reserved : Phrasebook.standard.isReserved name.toList = false

def Atom.Plain : Atom → Prop
  | number digits => IsNumeral digits.toList
  | reference name => PlainName name
  | _ => True

def Expression.Plain : Expression → Prop
  | atom value => value.Plain
  | negation operand => operand.Plain
  | binary left _ right => left.Plain ∧ right.Plain

def Atom.piece : Atom → Piece
  | number digits => word digits.toList
  | text contents => literal (codeUnits contents.toList)
  | truth true => word "true".toList
  | truth false => word "false".toList
  | reference name => word name.toList

namespace BinaryOperator

def pieces : BinaryOperator → List Piece
  | minus => [word ['-']]
  | operator => operator.symbol.toList.map mark

end BinaryOperator

namespace Expression

def parenthesizedPieces (isOperation : Bool) (ps : List Piece) : List Piece :=
  if isOperation then mark '(' :: (ps ++ [mark ')']) else ps

def pieces : Expression → List Piece
  | atom value => [value.piece]
  | negation operand => mark '!' :: parenthesizedPieces operand.isOperation operand.pieces
  | binary left operator right =>
    left.piece :: (operator.pieces ++ parenthesizedPieces right.isOperation right.pieces)

end Expression

theorem PlainName.cuts {name : String} (h : PlainName name) :
    Cuts name.toList [word name.toList] := by
  obtain ⟨c, more, he, hc, hmore⟩ := h.isVariable
  intro s hs
  refine cut_word (fun d hd => ?_) (by simp [he]) hs
  rw [he, List.mem_cons] at hd
  rcases hd with rfl | hd
  · simp [isWordChar, Char.isAlphanum, hc]
  · rcases hmore d hd with hd | rfl | rfl
    · simp [isWordChar, hd]
    · decide
    · decide

theorem Atom.Plain.cuts {a : Atom} (h : a.Plain) : Cuts a.javascript.toList [a.piece] := by
  cases a with
  | number digits =>
    intro s hs
    have hnumeral : IsNumeral digits.toList := h
    obtain ⟨d, hd, -⟩ := hnumeral.exists_digit
    refine cut_word (fun c hc => ?_) (List.ne_nil_of_mem hd) hs
    rcases hnumeral.mem c hc with rfl | rfl | hc
    · decide
    · decide
    · simp [isWordChar, Char.isAlphanum, hc]
  | text contents => exact fun s _ => cut_quote contents
  | truth value =>
    intro s hs
    cases value
    · exact cut_word (by simp [javascript, isWordChar]) (by simp [javascript]) hs
    · exact cut_word (by simp [javascript, isWordChar]) (by simp [javascript]) hs
  | reference name => exact PlainName.cuts h

theorem BinaryOperator.cut_symbol (operator : BinaryOperator) (s : List Char) :
    cut (' ' :: (operator.symbol.toList ++ ' ' :: s)) = operator.pieces ++ cut s := by
  cases operator <;> simp [symbol, pieces, isWordChar]

theorem Expression.Plain.cuts {e : Expression} (h : e.Plain) :
    Cuts e.javascript.toList e.pieces := by
  have hparenthesized {e : Expression} (he : Cuts e.javascript.toList e.pieces) :
      Cuts (parenthesized e.isOperation e.javascript).toList
        (parenthesizedPieces e.isOperation e.pieces) := by
    unfold parenthesized parenthesizedPieces
    split
    · intro s _
      -- Within the parentheses the word ends at the closing one, so no condition is left on `s`.
      have hclose := he (')' :: s) (by simp [isWordChar])
      simp [isWordChar, hclose]
    · exact he
  induction e with
  | atom a => exact Atom.Plain.cuts h
  | negation e ih =>
    intro s hs
    simp [javascript, pieces, isWordChar, hparenthesized (ih h) s hs]
  | binary a o e ih =>
    intro s hs
    have ha := Atom.Plain.cuts h.1 (' ' :: (o.symbol.toList ++ ' ' ::
      ((parenthesized e.isOperation e.javascript).toList ++ s))) (by simp [isWordChar])
    simp [javascript, pieces, ha, o.cut_symbol, hparenthesized (ih h.2) s hs]

def Change.pieces : Change → List Piece
  | assign => [mark '=']
  | increase => [mark '+', mark '=']
  | decrease => [word ['-'], mark '=']

mutual

def Statement.Plain : Statement → Prop
  | .declare name _ value => PlainName name ∧ ∀ e ∈ value, e.Plain
  | .change _ target value => PlainName target ∧ value.Plain
  | .print value => value.Plain
  | .conditional branches none => branches ≠ [] ∧ Branch.PlainAll branches
  | .conditional branches (some body) =>
    branches ≠ [] ∧ Branch.PlainAll branches ∧ Statement.PlainAll body
  | .whileLoop condition body => condition.Plain ∧ Statement.PlainAll body
  | .forLoop iterator lower upper body =>
    PlainName iterator ∧ lower.Plain ∧ upper.Plain ∧ Statement.PlainAll body
  | .call function arguments result =>
    PlainName function ∧ (∀ e ∈ arguments, e.Plain) ∧ ∀ n ∈ result, PlainName n
  | .giveBack value => value.Plain

def Statement.PlainAll : List Statement → Prop
  | [] => True
  | statement :: statements => statement.Plain ∧ Statement.PlainAll statements

def Branch.PlainAll : List Branch → Prop
  | [] => True
  | ⟨condition, body⟩ :: branches =>
    condition.Plain ∧ Statement.PlainAll body ∧ Branch.PlainAll branches

end

def ifPieces : List Piece := [word "if".toList, mark '(']

def elseIfPieces : List Piece :=
  [mark '\x7d', word "else".toList, word "if".toList, mark '(']

mutual

def Statement.pieces : Statement → List Piece
  | .declare name _ none => [word "var".toList, word name.toList, mark ';', mark '\n']
  | .declare name _ (some value) =>
    word "var".toList :: word name.toList :: mark '=' ::
      (value.pieces ++ [mark ';', mark '\n'])
  | .change change target value =>
    word target.toList :: (change.pieces ++ value.pieces ++ [mark ';', mark '\n'])
  | .print value =>
    word "VM.print".toList :: mark '(' ::
      (value.pieces ++ [mark ')', mark ';', mark '\n'])
  | .conditional branches none =>
    Branch.pieces ifPieces branches ++ [mark '\x7d', mark '\n']
  | .conditional branches (some body) =>
    Branch.pieces ifPieces branches ++
      mark '\x7d' :: word "else".toList :: mark '\x7b' :: mark '\n' ::
        (Statement.piecesAll body ++ [mark '\x7d', mark '\n'])
  | .whileLoop condition body =>
    word "while".toList :: mark '(' ::
      (condition.pieces ++ mark ')' :: mark '\x7b' :: mark '\n' ::
        (Statement.piecesAll body ++ [mark '\x7d', mark '\n']))
  | .forLoop iterator lower upper body =>
    word "for".toList :: mark '(' :: word "var".toList :: word iterator.toList :: mark '=' ::
      (lower.pieces ++ mark ';' :: word iterator.toList :: mark '<' :: mark '=' ::
        (upper.pieces ++ mark ';' :: word iterator.toList :: mark '+' :: mark '+' ::
          mark ')' :: mark '\x7b' :: mark '\n' ::
            (Statement.piecesAll body ++ [mark '\x7d', mark '\n'])))
  | .call function arguments none =>
    word function.toList :: mark '(' ::
      (commaSeparated (arguments.map Expression.pieces) ++ [mark ')', mark ';', mark '\n'])
  | .call function arguments (some result) =>
    word result.toList :: mark '=' :: word function.toList :: mark '(' ::
      (commaSeparated (arguments.map Expression.pieces) ++ [mark ')', mark ';', mark '\n'])
  | .giveBack value =>
    word "return".toList :: (value.pieces ++ [mark ';', mark '\n'])

def Statement.piecesAll : List Statement → List Piece
  | [] => []
  | statement :: statements => statement.pieces ++ Statement.piecesAll statements

def Branch.pieces (opening : List Piece) : List Branch → List Piece
  | [] => []
  | ⟨condition, body⟩ :: branches =>
    opening ++ (condition.pieces ++ mark ')' :: mark '\x7b' :: mark '\n' ::
      (Statement.piecesAll body ++ Branch.pieces elseIfPieces branches))

end

theorem Change.cut_symbol (change : Change) (s : List Char) :
    cut (' ' :: (change.symbol.toList ++ ' ' :: s)) = change.pieces ++ cut s := by
  cases change <;> simp [symbol, pieces, isWordChar]

theorem cut_if (s : List Char) : cut ("if (".toList ++ s) = ifPieces ++ cut s := by
  simp [ifPieces, isWordChar]

theorem cut_elseIf (s : List Char) :
    cut ("\x7d else if (".toList ++ s) = elseIfPieces ++ cut s := by
  simp [elseIfPieces, isWordChar]

theorem rows_closing : Rows [line "\x7d"] [mark '\x7d', mark '\n'] :=
  .single fun s => by simp [line, isWordChar]

mutual

theorem Statement.Plain.rows : (s : Statement) → s.Plain → Rows s.javascript s.pieces
  | .declare name _ none, ⟨hn, _⟩ => .single fun s => by
    simp [line, Statement.pieces, isWordChar, hn.cuts.cut_append]
  | .declare name _ (some value), ⟨hn, hv⟩ => .single fun s => by
    have hvalue := Expression.Plain.cuts (hv value rfl)
    simp [line, Statement.pieces, isWordChar, hn.cuts.cut_append, hvalue.cut_append]
  | .change kind target value, ⟨hn, hv⟩ => .single fun s => by
    have hvalue := Expression.Plain.cuts hv
    simp [line, Statement.pieces, isWordChar, hn.cuts.cut_append, kind.cut_symbol,
      hvalue.cut_append]
  | .print value, hv => .single fun s => by
    have hvalue := Expression.Plain.cuts hv
    simp [line, Statement.pieces, isWordChar, hvalue.cut_append]
  | .conditional branches none, ⟨_, hb⟩ =>
    (Branch.PlainAll.rows branches hb cut_if).append rows_closing
  | .conditional branches (some body), ⟨_, hb, hs⟩ => by
    have hbranches := Branch.PlainAll.rows branches hb cut_if
    have hbody := Statement.PlainAll.rows body hs
    have hotherwise : Rows [line "\x7d else \x7b"]
        [mark '\x7d', word "else".toList, mark '\x7b', mark '\n'] :=
      .single fun s => by simp [line, isWordChar]
    simpa [Statement.javascript, Statement.pieces] using
      hbranches.append (hotherwise.append (hbody.block.append rows_closing))
  | .whileLoop condition body, ⟨hc, hs⟩ => by
    have hcondition := Expression.Plain.cuts hc
    have hbody := Statement.PlainAll.rows body hs
    have hopening : Rows [line ("while (" ++ condition.javascript ++ ") \x7b")]
        (word "while".toList :: mark '(' ::
          (condition.pieces ++ [mark ')', mark '\x7b', mark '\n'])) :=
      .single fun s => by simp [line, isWordChar, hcondition.cut_append]
    simpa [Statement.javascript, Statement.pieces] using
      hopening.append (hbody.block.append rows_closing)
  | .forLoop iterator lower upper body, ⟨hn, hl, hu, hs⟩ => by
    have hlower := Expression.Plain.cuts hl
    have hupper := Expression.Plain.cuts hu
    have hbody := Statement.PlainAll.rows body hs
    have hopening : Rows [line ("for (var " ++ iterator ++ " = " ++ lower.javascript ++ "; " ++
        iterator ++ " <= " ++ upper.javascript ++ "; " ++ iterator ++ "++) \x7b")]
        (word "for".toList :: mark '(' :: word "var".toList :: word iterator.toList ::
          mark '=' :: (lower.pieces ++ mark ';' :: word iterator.toList :: mark '<' ::
            mark '=' :: (upper.pieces ++ [mark ';', word iterator.toList, mark '+', mark '+',
              mark ')', mark '\x7b', mark '\n']))) :=
      .single fun s => by
        simp [line, isWordChar, hn.cuts.cut_append, hlower.cut_append, hupper.cut_append]
    simpa [Statement.javascript, Statement.pieces] using
      hopening.append (hbody.block.append rows_closing)
  | .call function arguments none, ⟨hn, ha, _⟩ => .single fun s => by
    have harguments := cuts_intercalate fun e he => Expression.Plain.cuts (ha e he)
    simp [-String.toList_intercalate, line, Statement.pieces, isWordChar, hn.cuts.cut_append,
      harguments.cut_append]
  | .call function arguments (some result), ⟨hn, ha, hr⟩ => .single fun s => by
    have harguments := cuts_intercalate fun e he => Expression.Plain.cuts (ha e he)
    have hresult := hr result rfl
    simp [-String.toList_intercalate, line, Statement.pieces, isWordChar, hn.cuts.cut_append,
      hresult.cuts.cut_append, harguments.cut_append]
  | .giveBack value, hv => .single fun s => by
    have hvalue := Expression.Plain.cuts hv
    simp [line, Statement.pieces, isWordChar, hvalue.cut_append]

theorem Statement.PlainAll.rows :
    (ss : List Statement) → Statement.PlainAll ss →
      Rows (Statement.javascriptAll ss) (Statement.piecesAll ss)
  | [], _ => .nil
  | s :: ss, ⟨h, hs⟩ => (Statement.Plain.rows s h).append (Statement.PlainAll.rows ss hs)

theorem Branch.PlainAll.rows :
    (bs : List Branch) → Branch.PlainAll bs → {opening : String} → {ps : List Piece} →
      (∀ s, cut (opening.toList ++ s) = ps ++ cut s) →
      Rows (Branch.javascript opening bs) (Branch.pieces ps bs)
  | [], _, _, _, _ => .nil
  | ⟨condition, body⟩ :: bs, ⟨hc, hs, hb⟩, opening, ps, ho => by
    have hcondition := Expression.Plain.cuts hc
    have hbody := Statement.PlainAll.rows body hs
    have hbranches := Branch.PlainAll.rows bs hb cut_elseIf
    have hopening : Rows [line (opening ++ condition.javascript ++ ") \x7b")]
        (ps ++ (condition.pieces ++ [mark ')', mark '\x7b', mark '\n'])) :=
      .single fun s => by simp [line, isWordChar, hcondition.cut_append, ho]
    simpa [Branch.javascript, Branch.pieces] using hopening.append (hbody.block.append hbranches)

end

structure Function.Plain (f : Function) : Prop where
  name : PlainName f.name
  parameters : ∀ p ∈ f.parameters, PlainName p.name
  body : Statement.PlainAll f.body

def Item.Plain : Item → Prop
  | function f => f.Plain
  | statement s => s.Plain

def Program.Plain (p : Program) : Prop := ∀ item ∈ p.items, item.Plain

def Function.pieces (f : Function) : List Piece :=
  word "function".toList :: word f.name.toList :: mark '(' ::
    (commaSeparated (f.parameters.map fun p => [word p.name.toList]) ++ mark ')' ::
      mark '\x7b' :: mark '\n' ::
        (Statement.piecesAll f.body ++ [mark '\x7d', mark '\n']))

def Item.pieces : Item → List Piece
  | function f => f.pieces
  | statement s => s.pieces

theorem Function.Plain.rows {f : Function} (h : f.Plain) : Rows f.javascript f.pieces := by
  have hparameters := cuts_intercalate (f := Parameter.name) fun p hp => (h.parameters p hp).cuts
  have hbody := Statement.PlainAll.rows f.body h.body
  have hopening : Rows [line ("function " ++ f.name ++ " (" ++
      ", ".intercalate (f.parameters.map (·.name)) ++ ") \x7b")]
      (word "function".toList :: word f.name.toList :: mark '(' ::
        (commaSeparated (f.parameters.map fun p => [word p.name.toList]) ++
          [mark ')', mark '\x7b', mark '\n'])) :=
    .single fun s => by
      simp [-String.toList_intercalate, line, isWordChar, h.name.cuts.cut_append,
        hparameters.cut_append]
  simpa [javascript, pieces] using hopening.append (hbody.block.append rows_closing)

theorem Item.Plain.rows {item : Item} (h : item.Plain) : Rows item.javascript item.pieces := by
  cases item with
  | function f => exact Function.Plain.rows h
  | statement s => exact Statement.Plain.rows s h

/-- The script of a plain program is cut into the pieces of its items. -/
theorem Program.Plain.cut_javascript {p : Program} (h : p.Plain) :
    cut p.javascript.toList = p.items.flatMap Item.pieces := by
  refine Rows.cut_layout ?_
  obtain ⟨items⟩ := p
  induction items with
  | nil => exact .nil
  | cons item items ih =>
    obtain ⟨hi, his⟩ := List.forall_mem_cons.mp h
    exact (Item.Plain.rows hi).append (ih his)

end Wordy
