import Mathlib
import Wordy.Expression.Read
import Wordy.Proofs.Yields

/-! Reading an expression in two more ways. In the recursive way an expression is a `not` with an
expression behind it, or an atom with an operator and an expression behind it or nothing. In the
iterative way every atom with an operator behind it waits on a stack, beside the number of times
that `not` stands in front of it, and at the end the expression is put together from the top of the
stack. Both count the operators as they read them. At every cursor both come to what the reader of
expressions comes to. -/

namespace Wordy

open Reader

namespace Reader

variable {α : Type} {book : Phrasebook}

/-- Looks ahead for one of the values, and then reads the one that was found. -/
def lookAndTake? (book : Phrasebook) (token : α → Token) (values : List α) :
    Reader (Option α) := do
  match ← peek book token values with
  | some value => return some (← take book token [value])
  | none => return none

theorem lookAndTake?_eq_take? (token : α → Token) (values : List α) :
    lookAndTake? book token values = take? book token values := by
  funext c
  have hpeek : peek book token values c =
      .ok ((book.first c.ahead token values).2.map (·.1))
        ⟨c.rest, c.tried ++ (book.first c.ahead token values).1⟩ := rfl
  rw [lookAndTake?, bind_of_ok hpeek]
  cases hf : (book.first c.ahead token values).2 with
  | none =>
    have hnone := Phrasebook.after?_eq_none_of_first hf
    rw [take?_eq_of_none hnone, Phrasebook.first_eq_none hnone]
    rfl
  | some found =>
    obtain ⟨value, rest⟩ := found
    obtain ⟨-, hafter⟩ := Phrasebook.mem_of_first_eq_some hf
    have hsingle (d : Cursor) (hd : d.ahead = c.ahead) :
        take book token [value] d = .ok value ⟨rest, []⟩ := by
      refine take_eq_of_some (take?_eq_of_some ?_)
      rw [hd, Phrasebook.first, hafter]
    rw [take?_eq_of_some hf, Option.map_some]
    exact bind_of_ok (hsingle _ rfl)

end Reader

namespace Expression

/-- Reads an expression by recursion, `depth` operators of the whole one having been read. -/
def readRecursively (book : Phrasebook) (start : List Char) (depth : Nat) : Reader Expression := do
  if ← accept book .notWord then
    if depth < maxOperators then
      return .negation (← readRecursively book start (depth + 1))
    else
      fail .tooDeep start
  else
    let left ← Atom.read book
    match ← take? book BinaryOperator.token BinaryOperator.all with
    | some operator =>
      if depth < maxOperators then
        return .binary left operator (← readRecursively book start (depth + 1))
      else
        fail .tooDeep start
    | none => return .atom left
termination_by maxOperators - depth

/-- An atom and the operator behind it, with the number of times that `not` stands before them. -/
structure Waiting where
  negations : Nat
  left : Atom
  operator : BinaryOperator

def negate (operand : Expression) (count : Nat) : Expression := Expression.negation^[count] operand

/-- The expression whose last operand is known, put together from the top of the stack. -/
def unwind : List Waiting → Expression → Expression
  | [], operand => operand
  | w :: waiting, operand =>
    unwind waiting (negate (.binary w.left w.operator operand) w.negations)

/-- Reads an expression in a loop, in which `not` has just been read so many times and `depth`
operators altogether. -/
def readLoop (book : Phrasebook) (start : List Char) (waiting : List Waiting)
    (negations depth : Nat) : Reader Expression := do
  if (← lookAndTake? book id [.notWord]).isSome then
    if depth < maxOperators then
      readLoop book start waiting (negations + 1) (depth + 1)
    else
      fail .tooDeep start
  else
    let left ← Atom.read book
    match ← lookAndTake? book BinaryOperator.token BinaryOperator.all with
    | some operator =>
      if depth < maxOperators then
        readLoop book start (⟨negations, left, operator⟩ :: waiting) 0 (depth + 1)
      else
        fail .tooDeep start
    | none => return unwind waiting (negate (.atom left) negations)
termination_by maxOperators - depth

variable {book : Phrasebook} {start : List Char}

/-- The recursion goes from one link of the chain to the next. -/
theorem readRecursively_eq (depth : Nat) :
    readRecursively book start depth = Link.read book >>= fun next =>
      match next with
      | .inl link =>
        if depth < maxOperators then link.apply <$> readRecursively book start (depth + 1)
        else fail .tooDeep start
      | .inr last => pure (.atom last) := by
  rw [readRecursively, Link.read]
  simp only [bind_assoc]
  refine bind_congr fun found => ?_
  cases found with
  | true =>
    simp only [if_true, bind_pure_comp, pure_bind]
    rfl
  | false =>
    simp only [Bool.false_eq_true, if_false, bind_assoc, bind_pure_comp]
    refine bind_congr fun left => bind_congr fun operator => ?_
    cases operator with
    | none => rfl
    | some operator => rfl

/-- The reader of links spends one of its limit where the recursion counts one operator more. -/
theorem readRecursively_eq_readChain {limit depth : Nat} (h : depth + limit = maxOperators) :
    readRecursively book start depth =
      (fun chain => ofChain chain.1 chain.2) <$> readChain book start limit := by
  induction limit generalizing depth with
  | zero =>
    have hdepth : ¬ depth < maxOperators := by omega
    rw [readRecursively_eq, readChain, map_bind]
    refine bind_congr fun next => ?_
    cases next with
    | inl link =>
      simp only [if_neg hdepth]
      rfl
    | inr last => rfl
  | succ limit ih =>
    have hdepth : depth < maxOperators := by omega
    rw [readRecursively_eq, readChain, map_bind]
    refine bind_congr fun next => ?_
    cases next with
    | inl link =>
      simp only [if_pos hdepth, ih (show depth + 1 + limit = maxOperators by omega), map_bind,
        Functor.map_map]
      rw [map_eq_pure_bind]
      rfl
    | inr last => rfl

theorem negate_succ (operand : Expression) (count : Nat) :
    negate operand (count + 1) = negate (.negation operand) count :=
  Function.iterate_succ_apply ..

/-- What waits on the stack goes around the expression that the recursion reads from here on. -/
theorem readLoop_eq_readRecursively (waiting : List Waiting) (negations depth : Nat) :
    readLoop book start waiting negations depth =
      (fun operand => unwind waiting (negate operand negations)) <$>
        readRecursively book start depth := by
  fun_induction readLoop book start waiting negations depth with
  | case1 waiting negations depth ihNegation ihOperation =>
    -- Each link that the loop puts on its stack is one that the recursion waits with.
    rw [readRecursively, map_bind, lookAndTake?_eq_take?, lookAndTake?_eq_take?, accept_bind]
    refine bind_congr fun found => ?_
    by_cases hfound : found.isSome = true
    · rw [if_pos hfound, if_pos hfound]
      by_cases hdepth : depth < maxOperators
      · rw [if_pos hdepth, if_pos hdepth, ihNegation hdepth]
        simp [negate_succ]
      · rw [if_neg hdepth, if_neg hdepth]
        rfl
    · rw [if_neg hfound, if_neg hfound, map_bind]
      refine bind_congr fun left => ?_
      rw [map_bind]
      refine bind_congr fun operator => ?_
      cases operator with
      | none => rfl
      | some operator =>
        by_cases hdepth : depth < maxOperators
        · simp only [if_pos hdepth, ihOperation left operator hdepth, bind_pure_comp,
            Functor.map_map]
          rfl
        · simp only [if_neg hdepth]
          rfl

end Expression

/-- From every cursor the recursion and the loop come to what the reader comes to: to one expression
and one cursor behind it, or to one failure, which for one operator too many lies where the whole
expression starts, and one cursor. -/
theorem Expression.read_eq_recursion_and_loop (book : Phrasebook) :
    Expression.read book = (do Expression.readRecursively book (← ahead) 0) ∧
      Expression.read book = (do Expression.readLoop book (← ahead) [] 0 0) := by
  have hrecursion : Expression.read book = (do Expression.readRecursively book (← ahead) 0) := by
    refine bind_congr fun start => ?_
    rw [Expression.readRecursively_eq_readChain (Nat.zero_add maxOperators)]
    rfl
  refine ⟨hrecursion, hrecursion.trans (bind_congr fun start => ?_)⟩
  rw [Expression.readLoop_eq_readRecursively]
  exact (id_map _).symm

end Wordy
