import Mathlib
import Wordy.Proofs.ForkedExpressions
import Wordy.Proofs.WrittenPrograms

/-! Statements, functions and programs on two texts that part at a point. The limits of the two
readers have nothing to do with each other, as those are the lengths of the texts. -/

namespace Wordy

open Text Phrasebook Reader Fork

variable {fork : Fork}

namespace Reader

variable {α : Type} {P Q : List Token} {t : Token}

theorem follows_optional {part part' : Reader α} (ht : t ∈ Token.spelled)
    (hapart : ∀ u ∈ P, t.Apart u) (hp : fork.Follows [] part part' Q) (hQ : P ++ [t] ⊆ Q) :
    fork.Follows P (optional (accept standard t) part) (optional (accept standard t) part') Q :=
  .accept ht hapart (hp.bind fun _ => .pure (List.Subset.refl _)) (.pure hQ)

variable {item item' : Reader α}

theorem loses_others (ht : t ∈ Token.spelled) (hapart : ∀ u ∈ P, t.Apart u)
    (hi : fork.Loses [] [] item P) (limit : Nat) :
    fork.Loses [] P (others (accept standard t) item limit) (P ++ [t]) := by
  induction limit with
  | zero => exact .ahead fun _ => .fail (by nofun)
  | succ limit ih =>
    exact .accept ht hapart (hi.bind fun _ => ih.bind fun _ => .pure (List.Subset.refl _))
      (.pure (List.Subset.refl _))

theorem follows_others (ht : t ∈ Token.spelled) (hapart : ∀ u ∈ P, t.Apart u)
    (hi : fork.Follows [] item item' P) (n m : Nat) :
    fork.Follows P (others (accept standard t) item n) (others (accept standard t) item' m)
      (P ++ [t]) := by
  induction n generalizing m with
  | zero => exact .stalled_left
  | succ n ih =>
    cases m with
    | zero => exact .stalled_right (loses_others ht hapart hi.loses (n + 1))
    | succ m =>
      exact .accept ht hapart (hi.bind fun _ => (ih m).bind fun _ => .pure (List.Subset.refl _))
        (.pure (List.Subset.refl _))

theorem follows_separated (ht : t ∈ Token.spelled) (hapart : ∀ u ∈ P, t.Apart u)
    (hi : fork.Follows [] item item' P) :
    fork.Follows [] (separated (accept standard t) item) (separated (accept standard t) item')
      (P ++ [t]) :=
  hi.bind fun _ => .get fun _ _ => (follows_others ht hapart hi _ _).bind fun _ =>
    .pure (List.Subset.refl _)

end Reader

theorem BaseType.follows_read :
    fork.Follows [] (BaseType.read standard) (BaseType.read standard) [] :=
  .take (fun base _ => ⟨by cases base <;> decide, by simp⟩) (by decide)

theorem Ascription.follows_read? :
    fork.Follows [] (Ascription.read? standard) (Ascription.read? standard) Ascription.tokens := by
  refine .accept (by decide) (by simp) ?_ ?_
  · exact BaseType.follows_read.bind fun _ => .pure (List.nil_subset _)
  · refine .take? ?_ (by decide) (fun _ _ => .pure (List.nil_subset _)) (.pure ?_)
    · exact fun base _ => ⟨by cases base <;> decide, by cases base <;> decide⟩
    · exact List.Subset.refl _

theorem follows_closeBlock {closing : Token} {P : List Token} (ht : closing ∈ Token.spelled)
    (hapart : ∀ u ∈ P, closing.Apart u) :
    fork.Follows P (closeBlock standard closing) (closeBlock standard closing) [] := by
  rw [closeBlock_eq]
  exact .accept ht hapart (.pure (List.nil_subset _)) .refuseBlock

theorem follows_name : fork.Follows [] (Reader.name standard) (Reader.name standard) [] :=
  .name (by simp [Short])

namespace Statement

variable {body body' : Reader (List Statement)}

theorem follows_initial :
    fork.Follows Ascription.tokens
      (optional (return (← take? standard id [.equalTo, .initializedTo]).isSome)
        (Expression.read standard))
      (optional (return (← take? standard id [.equalTo, .initializedTo]).isSome)
        (Expression.read standard)) continuations := by
  unfold Reader.optional
  simp only [bind_assoc, pure_bind]
  refine .take? ?_ (by decide) (fun _ _ => ?_) (.pure (by decide))
  · unfold Clear
    decide
  · exact (Expression.follows_read.bind fun _ => .pure operators_subset)

theorem follows_readDeclaration :
    fork.Follows [] (readDeclaration standard) (readDeclaration standard) continuations := by
  refine .ahead fun _ _ => follows_name.bind fun name => (Follows.expect (by decide)
    (by simp)).bind fun _ => Ascription.follows_read?.bind fun ascription =>
    follows_initial.bind fun value => ?_
  by_cases h : (ascription.isNone && value.isNone) = true
  · rw [if_pos h, if_pos h]
    exact .fail (by nofun)
  · rw [if_neg h, if_neg h]
    exact .pure (List.Subset.refl _)

theorem follows_readChange {kind : Change} :
    fork.Follows [] (readChange standard kind) (readChange standard kind) continuations :=
  follows_name.bind fun _ => (Follows.expect (by cases kind <;> decide) (by simp)).bind fun _ =>
    Expression.follows_read.bind fun _ => .pure operators_subset

theorem follows_readBranch (hb : fork.Follows [] body body' blockTokens) :
    fork.Follows [] (readBranch standard body) (readBranch standard body') blockTokens :=
  Expression.follows_read.bind fun _ => (Follows.expect (by decide) (by decide)).bind fun _ =>
    hb.bind fun _ => .pure (List.Subset.refl _)

def branchTokens : List Token := blockTokens ++ [.butIf, .otherwise]

theorem follows_readConditional (hb : fork.Follows [] body body' blockTokens) :
    fork.Follows [] (readConditional standard body) (readConditional standard body')
      continuations := by
  have hsub : blockTokens ⊆ branchTokens := List.subset_append_left _ _
  refine (follows_separated (by decide) (by decide) (follows_readBranch hb)).bind fun branches => ?_
  refine (follows_optional (by decide) (by decide) (((Follows.expect (by decide) (by decide)).bind
    fun _ => hb).mono (List.Subset.refl _) hsub) ?_).bind fun otherwise => ?_
  · decide
  · exact (follows_closeBlock (by decide) (by decide)).bind fun _ => .pure (List.nil_subset _)

theorem follows_readWhileLoop (hb : fork.Follows [] body body' blockTokens) :
    fork.Follows [] (readWhileLoop standard body) (readWhileLoop standard body') continuations :=
  (follows_readBranch hb).bind fun _ => (follows_closeBlock (by decide) (by decide)).bind fun _ =>
    .pure (List.nil_subset _)

theorem follows_readForLoop (hb : fork.Follows [] body body' blockTokens) :
    fork.Follows [] (readForLoop standard body) (readForLoop standard body') continuations := by
  refine follows_name.bind fun _ => (Follows.expect (by decide) (by decide)).bind fun _ => ?_
  refine Expression.follows_read.bind fun _ => (Follows.expect (by decide) (by decide)).bind
    fun _ => ?_
  refine Expression.follows_read.bind fun _ => (Follows.expect (by decide) (by decide)).bind
    fun _ => ?_
  exact hb.bind fun _ => (follows_closeBlock (by decide) (by decide)).bind fun _ =>
    .pure (List.nil_subset _)

def argumentTokens : List Token := BinaryOperator.tokens ++ [.comma, .withArg]

theorem follows_arguments :
    fork.Follows [] (Reader.optional (accept standard .withArg)
        (separated (accept standard .comma) (Expression.read standard)))
      (Reader.optional (accept standard .withArg)
        (separated (accept standard .comma) (Expression.read standard))) argumentTokens :=
  follows_optional (by decide) (by decide)
    ((follows_separated (by decide) (by decide) Expression.follows_read).mono
      (List.Subset.refl _) (by decide)) (by decide)

theorem follows_readCall :
    fork.Follows [] (readCall standard) (readCall standard) continuations := by
  refine follows_name.bind fun _ => follows_arguments.bind fun _ => ?_
  refine (follows_optional (by decide) (by decide) ?_ (by decide)).bind fun _ =>
    .pure (List.Subset.refl _)
  exact follows_name.mono (List.Subset.refl _) (List.nil_subset _)

theorem follows_read (hb : fork.Follows [] body body' blockTokens) (opening : Opening) :
    fork.Follows [] (read standard body opening) (read standard body' opening) continuations := by
  cases opening with
  | declare => exact follows_readDeclaration
  | change kind => exact follows_readChange
  | print => exact Expression.follows_read.bind fun _ => .pure operators_subset
  | conditional => exact follows_readConditional hb
  | whileLoop => exact follows_readWhileLoop hb
  | forLoop => exact follows_readForLoop hb
  | call => exact follows_readCall
  | giveBack => exact Expression.follows_read.bind fun _ => .pure operators_subset

theorem follows_readBlock_succ {n m : Nat}
    (h : fork.Follows continuations (readBlock standard n) (readBlock standard m) blockTokens) :
    fork.Follows continuations (readBlock standard (n + 1)) (readBlock standard (m + 1))
      blockTokens := by
  have hb := h.mono (List.nil_subset _) (List.Subset.refl _)
  refine .take? (fun o _ => ⟨o.token_mem_spelled, opening_apart o⟩) (fun o _ => o.apart)
    (fun o _ => ?_) (.pure (List.Subset.refl _))
  exact (follows_read hb o).bind fun _ => h.bind fun _ => .pure (List.Subset.refl _)

theorem follows_readBlock (n m : Nat) :
    fork.Follows continuations (readBlock standard n) (readBlock standard m) blockTokens := by
  have hdiagonal (n : Nat) :
      fork.Follows continuations (readBlock standard n) (readBlock standard n) blockTokens := by
    induction n with
    | zero => exact .stalled_left
    | succ n ih => exact follows_readBlock_succ ih
  induction n generalizing m with
  | zero => exact .stalled_left
  | succ n ih =>
    cases m with
    | zero => exact .stalled_right (hdiagonal (n + 1)).loses
    | succ m => exact follows_readBlock_succ (ih m)

end Statement

theorem Parameter.follows_read {function : String} :
    fork.Follows [] (Parameter.read standard function) (Parameter.read standard function)
      Ascription.tokens := by
  refine .ahead fun _ _ => follows_name.bind fun _ => (Follows.expect (by decide) (by decide)).bind
    fun _ => Ascription.follows_read?.bind fun ascription => ?_
  cases ascription with
  | some _ => exact .pure (List.Subset.refl _)
  | none => exact .fail (by nofun)

namespace Function

def parameterTokens : List Token := Ascription.tokens ++ [.comma, .withParam]

theorem follows_parameters {function : String} :
    fork.Follows [] (Reader.optional (accept standard .withParam)
        (separated (accept standard .comma) (Parameter.read standard function)))
      (Reader.optional (accept standard .withParam)
        (separated (accept standard .comma) (Parameter.read standard function)))
      parameterTokens :=
  follows_optional (by decide) (by decide)
    ((follows_separated (by decide) (by decide) Parameter.follows_read).mono
      (List.Subset.refl _) (by decide)) (by decide)

theorem follows_returns :
    fork.Follows parameterTokens
      (Reader.optional (accept standard .thatReturn) (BaseType.read standard))
      (Reader.optional (accept standard .thatReturn) (BaseType.read standard))
      (parameterTokens ++ [.thatReturn]) :=
  follows_optional (by decide) (by decide)
    (BaseType.follows_read.mono (List.Subset.refl _) (List.nil_subset _)) (List.Subset.refl _)

theorem follows_read {body body' : Reader (List Statement)}
    (hb : fork.Follows [] body body' Statement.blockTokens) :
    fork.Follows [] (Function.read standard body) (Function.read standard body') [] := by
  refine follows_name.bind fun _ => follows_parameters.bind fun _ => follows_returns.bind
    fun _ => ?_
  refine (Follows.expect (by decide) (by decide)).bind fun _ => hb.bind fun _ => ?_
  exact (follows_closeBlock (by decide) (by decide)).bind fun _ => .pure (List.Subset.refl _)

end Function

namespace Program

theorem reports_readItems_succ {n m : Nat}
    (h : fork.Reports Statement.continuations (readItems standard n) (readItems standard m)) :
    fork.Reports Statement.continuations (readItems standard (n + 1))
      (readItems standard (m + 1)) := by
  have hb : fork.Follows [] (Statement.readBlock standard n) (Statement.readBlock standard m)
      Statement.blockTokens :=
    (Statement.follows_readBlock n m).mono (List.nil_subset _) (List.Subset.refl _)
  refine .take .finish (fun o _ hne => ?_) (fun o _ => o.apart) (fun _ _ _ h => nomatch h)
    fun o _ hne => ?_
  · cases o with
    | finish => exact absurd rfl hne
    | function => exact ⟨by decide, by decide⟩
    | statement o => exact ⟨o.token_mem_spelled, Statement.opening_apart o⟩
  · cases o with
    | finish => exact absurd rfl hne
    | function => exact .bind ((Function.follows_read hb).mono (List.Subset.refl _)
        (List.nil_subset _)) fun _ => h.map
    | statement o => exact .bind (Statement.follows_read hb o) fun _ => h.map

theorem reports_readItems (n m : Nat) :
    fork.Reports Statement.continuations (readItems standard n) (readItems standard m) := by
  have hdiagonal (n : Nat) :
      fork.Reports Statement.continuations (readItems standard n) (readItems standard n) := by
    induction n with
    | zero => exact .stalled_left
    | succ n ih => exact reports_readItems_succ ih
  induction n generalizing m with
  | zero => exact .stalled_left
  | succ n ih =>
    cases m with
    | zero => exact .stalled_right (hdiagonal (n + 1))
    | succ m => exact reports_readItems_succ (ih m)

theorem reports_read : fork.Reports Statement.continuations (read standard) (read standard) :=
  .get fun _ _ => (reports_readItems _ _).map

end Program

end Wordy
