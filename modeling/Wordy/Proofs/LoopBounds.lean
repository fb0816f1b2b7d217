import Mathlib
import Wordy.Compiler
import Wordy.Program.Equality
import Wordy.Proofs.Grouping

/-! The condition of a loop in a script. The upper bound stands behind `<=` without parentheses, so
that the bound stays whole only where it binds more tightly than `<=`; any other operator at its
root takes the comparison as its left operand. -/

namespace Wordy

open Script

/-- The text between the semicolons in the head of a loop. -/
def Expression.loopCondition (iterator : String) (upper : Expression) : String :=
  iterator ++ " <= " ++ upper.javascript

/-- The comparison of the iterator with a bound. -/
def Script.atMost (iterator : String) (bound : Tree) : Tree :=
  .binary (.primary iterator) "<=" bound

namespace Expression

/-- The bound is compared as a whole. -/
def bindsTighter : Expression → Prop
  | binary _ operator _ => BinaryOperator.lessOrEqual.layer < operator.layer
  | _ => True

def loopTree (iterator : String) : Expression → Tree
  | binary left operator right =>
    if BinaryOperator.lessOrEqual.layer < operator.layer then
      atMost iterator (binary left operator right).tree
    else .binary (atMost iterator (.primary left.javascript)) operator.symbol right.tree
  | upper => atMost iterator upper.tree

def loopTokens (iterator : String) (upper : Expression) : List Script.Token :=
  .primary iterator :: .operator "<=" :: upper.tokens

theorem loopTree_eq_atMost_iff (iterator : String) (upper : Expression) :
    loopTree iterator upper = atMost iterator upper.tree ↔ upper.bindsTighter := by
  cases upper with
  | binary l o r =>
    by_cases ho : BinaryOperator.lessOrEqual.layer < o.layer
    · simp [loopTree, bindsTighter, ho]
    · simp [loopTree, bindsTighter, ho, atMost, tree]
  | _ => simp [loopTree, bindsTighter]

/-- An operand of `<=` on its right is derived one layer above it. -/
theorem derives_atMost (iterator : String) {bound : Tree} {ts : List Script.Token}
    (h : Derives 4 ts bound) :
    Derives 3 (.primary iterator :: .operator "<=" :: ts) (atMost iterator bound) := by
  have hiterator : Derives 3 [.primary iterator] (.primary iterator) :=
    (Derives.primary iterator).lower le_rfl (by decide)
  change Derives 3 ([.primary iterator] ++ .operator "<=" :: ts) (atMost iterator bound)
  exact .binary rfl hiterator h

theorem derives_loopTokens (iterator : String) (upper : Expression) :
    Derives 0 (loopTokens iterator upper) (loopTree iterator upper) := by
  have hlower {ts : List Script.Token} {bound : Tree} {n : Nat} (h : Derives n ts bound)
      (hn : n ≤ 6) (hle : 4 ≤ n) :
      Derives 0 (.primary iterator :: .operator "<=" :: ts) (atMost iterator bound) :=
    (derives_atMost iterator (h.lower hn hle)).lower (by decide) (by decide)
  cases upper with
  | atom a => exact hlower (.primary a.javascript) le_rfl (by decide)
  | negation e => exact hlower (derives_negation e.derives_tokens) le_rfl (by decide)
  | binary l o r =>
    by_cases ho : BinaryOperator.lessOrEqual.layer < o.layer
    · rw [loopTree, if_pos ho]
      exact hlower (derives_binary r.derives_tokens) o.layer_lt.le ho
    · -- The comparison with the first atom of the bound is the left operand.
      have hfirst : Derives 4 [.primary l.javascript] (.primary l.javascript) :=
        (Derives.primary l.javascript).lower le_rfl (by decide)
      have hleft := (derives_atMost iterator hfirst).lower (by decide) (Nat.le_of_not_lt ho)
      have hright := (derives_parenthesized r.derives_tokens).lower le_rfl o.layer_lt
      rw [loopTree, if_neg ho]
      exact (Derives.binary o.precedence?_symbol hleft hright).lower o.layer_lt.le
        (Nat.zero_le o.layer)

theorem toList_loopCondition (iterator : String) (upper : Expression) :
    (loopCondition iterator upper).toList =
      iterator.toList ++ (' ' :: ("<=".toList ++ ' ' :: upper.javascript.toList)) := by
  simp [loopCondition]

theorem spells_loopCondition (iterator : String) (upper : Expression) :
    Spells (loopTokens iterator upper) (loopCondition iterator upper).toList := by
  have hupper : Spells upper.tokens upper.javascript.toList := by
    simpa using upper.spells_append .nil
  rw [toList_loopCondition]
  exact .cons (.primary iterator) (.space (.cons (.operator "<=") (.space hupper)))

theorem lexOperand_loopCondition {iterator : String} {upper : Expression}
    (hi : StartsAtom iterator) (h : ∀ a ∈ upper.atoms, StartsAtom a.javascript) :
    lexOperand (iterator :: upper.atoms.map Atom.javascript)
      (loopCondition iterator upper).toList = some (loopTokens iterator upper) := by
  have hsymbol : lexOperator (upper.atoms.map Atom.javascript)
      (' ' :: ("<=".toList ++ ' ' :: upper.javascript.toList)) =
        (lexOperand (upper.atoms.map Atom.javascript) upper.javascript.toList).map
          (.operator "<=" :: ·) := lexOperator_symbol .lessOrEqual
  rw [toList_loopCondition, lexOperand_atom hi, hsymbol, upper.lexOperand_atoms h]
  rfl

end Expression

/-- The condition of a loop is the comparison of the iterator with the bound where the operator at
the root of the bound binds more tightly than `<=`. Any other operator there takes the comparison
with the first atom of the bound as its left operand. -/
theorem forLoop_condition (iterator : String) (lower upper : Expression) (body : List Statement) :
    (Statement.forLoop iterator lower upper body).javascript.head? =
      some (line ("for (var " ++ iterator ++ " = " ++ lower.javascript ++ "; " ++
        upper.loopCondition iterator ++ "; " ++ iterator ++ "++) \x7b")) ∧
    (∃ ts, Spells ts (upper.loopCondition iterator).toList ∧
      (∀ t, Derives 0 ts t ↔ t = upper.loopTree iterator) ∧
      (StartsAtom iterator → (∀ a ∈ upper.atoms, StartsAtom a.javascript) →
        lexOperand (iterator :: upper.atoms.map Atom.javascript)
          (upper.loopCondition iterator).toList = some ts)) ∧
    (upper.loopTree iterator = atMost iterator upper.tree ↔ upper.bindsTighter) := by
  have htree := upper.derives_loopTokens iterator
  refine ⟨?_, ⟨upper.loopTokens iterator, upper.spells_loopCondition iterator, fun t =>
    ⟨fun h => h.unique htree, fun h => h ▸ htree⟩, Expression.lexOperand_loopCondition⟩,
    upper.loopTree_eq_atMost_iff iterator⟩
  simp [Statement.javascript, Expression.loopCondition, String.append_assoc]

def eitherOf (a b : String) : Expression :=
  .binary (.reference a) .disjunction (.atom (.reference b))

/-- The bound `a or b` is split: only `a` is compared. -/
theorem splits_disjunction :
    parse "for i from 1 to a or b do end of for" =
      .ok ⟨[.statement (.forLoop "i" (.atom (.number "1")) (eitherOf "a" "b") [])]⟩ ∧
    compile "for i from 1 to a or b do end of for" .javascript =
      .ok "for (var i = 1; i <= a || b; i++) \x7b\n\x7d\n" ∧
    ∃ ts, lexOperand ["i", "a", "b"] "i <= a || b".toList = some ts ∧
      Derives 0 ts (.binary (atMost "i" (.primary "a")) "||" (.primary "b")) ∧
      ¬Derives 0 ts (atMost "i" (eitherOf "a" "b").tree) := by
  have htree : Derives 0
      [.primary "i", .operator "<=", .primary "a", .operator "||", .primary "b"]
      (.binary (atMost "i" (.primary "a")) "||" (.primary "b")) :=
    (eitherOf "a" "b").derives_loopTokens "i"
  exact ⟨by decide +kernel, by decide +kernel, _, by decide +kernel, htree,
    fun h => absurd (h.unique htree) (by decide)⟩

end Wordy
