import Mathlib
import Wordy.Javascript
import Wordy.Proofs.Precedence

/-! The text of an expression in a script, read by the layers of the grammar. Every operand that is
an operation stands in parentheses, so that the tree of the tokens is the tree of the expression,
whichever operators it holds. The text of an atom counts as one token, whatever it is. -/

namespace Wordy

open Script

namespace Script

namespace Token

def text : Token → String
  | primary text => text
  | operator symbol => symbol
  | bang => "!"
  | opening => "("
  | closing => ")"

end Token

/-- The text is made of the tokens, with spaces between some of them. -/
inductive Spells : List Token → List Char → Prop
  | nil : Spells [] []
  | space {ts : List Token} {s : List Char} (h : Spells ts s) : Spells ts (' ' :: s)
  | cons {ts : List Token} {s : List Char} (t : Token) (h : Spells ts s) :
      Spells (t :: ts) (t.text.toList ++ s)

/-- The symbols of the binary operators, each before those that it begins with. -/
def symbols : List String :=
  ["===", "!==", "<=", ">=", "&&", "||", "<", ">", "+", "-", "*", "/", "%"]

mutual

/-- Reads tokens up to the end of the text, where an operand comes next. The texts of the primary
expressions are known, in their order. -/
def lexOperand (atoms : List String) (s : List Char) : Option (List Token) :=
  match s, atoms with
  | ' ' :: s, atoms => lexOperand atoms s
  | '!' :: s, atoms => (lexOperand atoms s).map (.bang :: ·)
  | '(' :: s, atoms => (lexOperand atoms s).map (.opening :: ·)
  | s, atom :: atoms =>
    if atom.toList <+: s then
      (lexOperator atoms (s.drop atom.toList.length)).map (.primary atom :: ·)
    else none
  | _, [] => none
termination_by s.length + atoms.length

/-- Reads tokens up to the end of the text, where an operand has ended. -/
def lexOperator (atoms : List String) (s : List Char) : Option (List Token) :=
  match s with
  | [] => some []
  | ' ' :: s => lexOperator atoms s
  | ')' :: s => (lexOperator atoms s).map (.closing :: ·)
  | c :: s =>
    match symbols.find? (fun symbol => symbol.toList.isPrefixOf (c :: s)) with
    | some symbol =>
      (lexOperand atoms (s.drop (symbol.toList.length - 1))).map (.operator symbol :: ·)
    | none => none
termination_by s.length + atoms.length
decreasing_by all_goals grind

end

variable {atoms : List String} {s : List Char}

theorem lexOperand_bang : lexOperand atoms ('!' :: s) = (lexOperand atoms s).map (.bang :: ·) := by
  rw [lexOperand]

theorem lexOperand_opening :
    lexOperand atoms ('(' :: s) = (lexOperand atoms s).map (.opening :: ·) := by
  rw [lexOperand]

theorem lexOperator_closing :
    lexOperator atoms (')' :: s) = (lexOperator atoms s).map (.closing :: ·) := by
  rw [lexOperator]

/-- An operand starts here that is neither a negation nor in parentheses. -/
def StartsAtom (text : String) : Prop :=
  ∃ c rest, text.toList = c :: rest ∧ c ≠ ' ' ∧ c ≠ '!' ∧ c ≠ '('

theorem lexOperand_atom {atom : String} (h : StartsAtom atom) :
    lexOperand (atom :: atoms) (atom.toList ++ s) =
      (lexOperator atoms s).map (.primary atom :: ·) := by
  obtain ⟨c, rest, hatom, hspace, hbang, hopening⟩ := h
  have hprefix : atom.toList <+: c :: (rest ++ s) := ⟨s, by simp [hatom]⟩
  have hdrop : (c :: (rest ++ s)).drop atom.toList.length = s := by simp [hatom]
  rw [hatom, List.cons_append, lexOperand, if_pos hprefix, hdrop]
  all_goals simp [*]

theorem lexOperator_symbol (o : BinaryOperator) :
    lexOperator atoms (' ' :: (o.symbol.toList ++ ' ' :: s)) =
      (lexOperand atoms s).map (.operator o.symbol :: ·) := by
  have hspace : lexOperand atoms (' ' :: s) = lexOperand atoms s := by rw [lexOperand]
  cases o <;> simp [BinaryOperator.symbol, lexOperator, symbols, hspace]

end Script

namespace BinaryOperator

def layer : BinaryOperator → Nat
  | disjunction => 0
  | conjunction => 1
  | equal | notEqual => 2
  | less | lessOrEqual | greater | greaterOrEqual => 3
  | plus | minus => 4
  | multiply | divide | modulo => 5

theorem precedence?_symbol (o : BinaryOperator) : precedence? o.symbol = some o.layer := by
  cases o <;> rfl

theorem layer_lt (o : BinaryOperator) : o.layer < 6 := precedence?_lt o.precedence?_symbol

end BinaryOperator

namespace Expression

def atoms : Expression → List Atom
  | atom value => [value]
  | negation operand => operand.atoms
  | binary left _ right => left :: right.atoms

def tree : Expression → Tree
  | atom value => .primary value.javascript
  | negation operand => .negation operand.tree
  | binary left operator right => .binary (.primary left.javascript) operator.symbol right.tree

def parenthesizedTokens (isOperation : Bool) (ts : List Script.Token) : List Script.Token :=
  if isOperation then .opening :: (ts ++ [.closing]) else ts

def tokens : Expression → List Script.Token
  | atom value => [.primary value.javascript]
  | negation operand => .bang :: parenthesizedTokens operand.isOperation operand.tokens
  | binary left operator right =>
    .primary left.javascript :: .operator operator.symbol ::
      parenthesizedTokens right.isOperation right.tokens

theorem toList_parenthesized (e : Expression) (s : List Char) :
    (parenthesized e.isOperation e.javascript).toList ++ s =
      if e.isOperation then '(' :: (e.javascript.toList ++ ')' :: s)
      else e.javascript.toList ++ s := by
  unfold parenthesized
  split <;> simp

theorem toList_negation (e : Expression) (s : List Char) :
    (negation e).javascript.toList ++ s =
      '!' :: ((parenthesized e.isOperation e.javascript).toList ++ s) := by
  simp [javascript]

theorem toList_binary (l : Atom) (o : BinaryOperator) (r : Expression) (s : List Char) :
    (binary l o r).javascript.toList ++ s =
      l.javascript.toList ++ (' ' :: (o.symbol.toList ++
        ' ' :: ((parenthesized r.isOperation r.javascript).toList ++ s))) := by
  simp [javascript]

theorem spells_parenthesized {e : Expression} {ts : List Script.Token} {s : List Char}
    (h : ∀ {ts s}, Spells ts s → Spells (e.tokens ++ ts) (e.javascript.toList ++ s))
    (hs : Spells ts s) :
    Spells (parenthesizedTokens e.isOperation e.tokens ++ ts)
      ((parenthesized e.isOperation e.javascript).toList ++ s) := by
  rw [toList_parenthesized, parenthesizedTokens]
  split
  · have hinner := h (Spells.cons .closing hs)
    simpa [Token.text] using Spells.cons .opening hinner
  · exact h hs

theorem spells_append (e : Expression) {ts : List Script.Token} {s : List Char}
    (hs : Spells ts s) : Spells (e.tokens ++ ts) (e.javascript.toList ++ s) := by
  induction e generalizing ts s with
  | atom a => exact .cons (.primary a.javascript) hs
  | negation e ih =>
    rw [toList_negation]
    exact .cons .bang (spells_parenthesized ih hs)
  | binary l o r ih =>
    rw [toList_binary]
    have hright := Spells.space (spells_parenthesized ih hs)
    exact .cons (.primary l.javascript) (.space (.cons (.operator o.symbol) hright))

theorem derives_parenthesized {e : Expression} (h : Derives 0 e.tokens e.tree) :
    Derives 6 (parenthesizedTokens e.isOperation e.tokens) e.tree := by
  cases e with
  | atom a => exact .primary a.javascript
  | negation e => exact h.group
  | binary l o r => exact h.group

theorem derives_negation {e : Expression} (h : Derives 0 e.tokens e.tree) :
    Derives 6 (negation e).tokens (negation e).tree :=
  (derives_parenthesized h).negation

theorem derives_binary {l : Atom} {o : BinaryOperator} {r : Expression}
    (h : Derives 0 r.tokens r.tree) :
    Derives o.layer (binary l o r).tokens (binary l o r).tree := by
  have hleft := (Derives.primary l.javascript).lower le_rfl o.layer_lt.le
  have hright := (derives_parenthesized h).lower le_rfl o.layer_lt
  exact .binary o.precedence?_symbol hleft hright

theorem derives_tokens (e : Expression) : Derives 0 e.tokens e.tree := by
  induction e with
  | atom a => exact (Derives.primary a.javascript).lower le_rfl (Nat.zero_le 6)
  | negation e ih => exact (derives_negation ih).lower le_rfl (Nat.zero_le 6)
  | binary l o r ih => exact (derives_binary ih).lower o.layer_lt.le (Nat.zero_le o.layer)

theorem lexOperand_parenthesized {e : Expression} {as : List String} {s : List Char}
    (h : ∀ {as s}, lexOperand (e.atoms.map Atom.javascript ++ as) (e.javascript.toList ++ s) =
      (lexOperator as s).map (e.tokens ++ ·)) :
    lexOperand (e.atoms.map Atom.javascript ++ as)
        ((parenthesized e.isOperation e.javascript).toList ++ s) =
      (lexOperator as s).map (parenthesizedTokens e.isOperation e.tokens ++ ·) := by
  rw [toList_parenthesized, parenthesizedTokens]
  split
  · rw [lexOperand_opening, h, lexOperator_closing]
    simp [Function.comp_def]
  · exact h

theorem lexOperand_javascript (e : Expression) (h : ∀ a ∈ e.atoms, StartsAtom a.javascript)
    {as : List String} {s : List Char} :
    lexOperand (e.atoms.map Atom.javascript ++ as) (e.javascript.toList ++ s) =
      (lexOperator as s).map (e.tokens ++ ·) := by
  induction e generalizing as s with
  | atom a => exact lexOperand_atom (h a List.mem_cons_self)
  | negation e ih =>
    rw [toList_negation, lexOperand_bang, atoms, lexOperand_parenthesized (ih h)]
    simp [tokens, Function.comp_def]
  | binary l o r ih =>
    obtain ⟨hl, hr⟩ := List.forall_mem_cons.mp h
    rw [toList_binary, atoms, List.map_cons, List.cons_append, lexOperand_atom hl,
      lexOperator_symbol, lexOperand_parenthesized (ih hr)]
    simp [tokens, Function.comp_def]

/-- The tokens of an expression are those that are read from the left, if no atom starts like a
negation or a parenthesis. -/
theorem lexOperand_atoms (e : Expression) (h : ∀ a ∈ e.atoms, StartsAtom a.javascript) :
    lexOperand (e.atoms.map Atom.javascript) e.javascript.toList = some e.tokens := by
  have hread : lexOperand (e.atoms.map Atom.javascript ++ []) (e.javascript.toList ++ []) =
      (lexOperator [] []).map (e.tokens ++ ·) := e.lexOperand_javascript h
  simpa [lexOperator] using hread

/-- With the text of each atom as one token, the text of an expression is derived as the tree of the
expression and as no other. The tokens are those that are read from the left, if no atom starts like
a negation or a parenthesis. -/
theorem javascript_groups_as_tree (e : Expression) :
    ∃ ts, Spells ts e.javascript.toList ∧ (∀ t, Derives 0 ts t ↔ t = e.tree) ∧
      ((∀ a ∈ e.atoms, StartsAtom a.javascript) →
        lexOperand (e.atoms.map Atom.javascript) e.javascript.toList = some ts) := by
  have htree := e.derives_tokens
  refine ⟨e.tokens, ?_, fun t => ⟨fun h => h.unique htree, fun h => h ▸ htree⟩,
    e.lexOperand_atoms⟩
  simpa using e.spells_append .nil

end Expression

end Wordy
