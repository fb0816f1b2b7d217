import Mathlib

/-! How the operators of a script group. A layer of the grammar of ECMAScript has a number: the
binary operators are layered from `||` up to `*`, `/` and `%` and group to the left, and above them
stand `!`, the primary expressions and the parentheses. The tokens of an expression have one tree at
most. -/

namespace Wordy.Script

inductive Token
  | primary (text : String)
  | operator (symbol : String)
  | bang
  | opening
  | closing
deriving DecidableEq, Repr

/-- Parentheses leave no trace but the shape of the tree. -/
inductive Tree
  | primary (text : String)
  | negation (operand : Tree)
  | binary (left : Tree) (symbol : String) (right : Tree)
deriving DecidableEq, Repr

def precedence? : String → Option Nat
  | "||" => some 0
  | "&&" => some 1
  | "===" | "!==" => some 2
  | "<" | "<=" | ">" | ">=" => some 3
  | "+" | "-" => some 4
  | "*" | "/" | "%" => some 5
  | _ => none

inductive Derives : Nat → List Token → Tree → Prop
  | primary (text : String) : Derives 6 [.primary text] (.primary text)
  | group {ts : List Token} {t : Tree} (h : Derives 0 ts t) :
      Derives 6 (.opening :: (ts ++ [.closing])) t
  | negation {ts : List Token} {t : Tree} (h : Derives 6 ts t) :
      Derives 6 (.bang :: ts) (.negation t)
  | binary {n : Nat} {ls rs : List Token} {l r : Tree} {symbol : String}
      (hn : precedence? symbol = some n) (hl : Derives n ls l) (hr : Derives (n + 1) rs r) :
      Derives n (ls ++ .operator symbol :: rs) (.binary l symbol r)
  | lift {n : Nat} {ts : List Token} {t : Tree} (hn : n < 6) (h : Derives (n + 1) ts t) :
      Derives n ts t

/-- The opening parentheses less the closing ones. -/
def balance : List Token → Int
  | [] => 0
  | .opening :: ts => balance ts + 1
  | .closing :: ts => balance ts - 1
  | _ :: ts => balance ts

theorem balance_append (ts us : List Token) : balance (ts ++ us) = balance ts + balance us := by
  induction ts with
  | nil => simp [balance]
  | cons t ts ih => cases t <;> simp only [List.cons_append, balance, ih] <;> omega

theorem precedence?_lt {symbol : String} {n : Nat} (h : precedence? symbol = some n) : n < 6 := by
  unfold precedence? at h
  split at h <;> cases h <;> decide

namespace Derives

variable {m n : Nat} {ts ps rs : List Token} {t u : Tree} {symbol : String}

theorem lower (h : Derives n ts t) (hn : n ≤ 6) (hm : m ≤ n) : Derives m ts t := by
  induction n, hm using Nat.le_induction with
  | base => exact h
  | succ n hmn ih => exact ih (h.lift (by omega)) (by omega)

theorem balance_eq (h : Derives n ts t) : balance ts = 0 := by
  induction h with
  | primary => rfl
  | group _ ih => simp [balance, balance_append, ih]
  | negation _ ih => exact ih
  | binary _ _ _ ihl ihr => simp [balance, balance_append, ihl, ihr]
  | lift _ _ ih => exact ih

theorem balance_suffix (h : Derives n ts t) (hs : rs <:+ ts) : balance rs ≤ 0 := by
  induction h generalizing rs with
  | primary text =>
    obtain rfl | hs := List.suffix_cons_iff.mp hs
    · rfl
    · simp [List.suffix_nil.mp hs, balance]
  | @group inner t h ih =>
    obtain rfl | hs := List.suffix_cons_iff.mp hs
    · exact le_of_eq h.group.balance_eq
    · obtain rfl | ⟨as, rfl, has⟩ := List.suffix_concat_iff.mp hs
      · simp [balance]
      · have hinner := ih has
        simp only [balance_append, balance]
        omega
  | @negation ts t h ih =>
    obtain rfl | hs := List.suffix_cons_iff.mp hs
    · exact le_of_eq h.negation.balance_eq
    · exact ih hs
  | @binary n ls rs' l r symbol hn hl hr ihl ihr =>
    -- The suffix begins within the left operand, or not before the operator.
    obtain ⟨ps, hps⟩ := hs
    obtain ⟨as, hls, rfl⟩ | ⟨bs, -, hbs⟩ := List.append_eq_append_iff.mp hps
    · have hleft := ihl ⟨ps, hls.symm⟩
      have hright := hr.balance_eq
      simp only [balance_append, balance]
      omega
    · obtain rfl | hs := List.suffix_cons_iff.mp ⟨bs, hbs.symm⟩
      · exact le_of_eq hr.balance_eq
      · exact ihr hs
  | lift _ _ ih => exact ih hs

/-- An operator outside all parentheses binds at least as tightly as the layer asks. -/
theorem le_precedence (h : Derives n ts t) (hts : ts = ps ++ .operator symbol :: rs)
    (hrs : balance rs = 0) : ∃ m, precedence? symbol = some m ∧ n ≤ m := by
  induction h generalizing ps rs with
  | primary text => simp [List.cons_eq_append_iff] at hts
  | @group inner t h ih =>
    -- What follows an operator between the parentheses closes one more than it opens.
    obtain ⟨-, he⟩ | ⟨ps, rfl, he⟩ := List.cons_eq_append_iff.mp hts
    · cases he
    · obtain ⟨as, -, has⟩ | ⟨bs, hinner, hbs⟩ := List.append_eq_append_iff.mp he
      · simp [List.cons_eq_append_iff] at has
      · obtain ⟨-, he⟩ | ⟨bs, rfl, rfl⟩ := List.cons_eq_append_iff.mp hbs
        · cases he
        · have hsuffix := h.balance_suffix (hinner ▸ (List.suffix_cons _ bs).trans
            (List.suffix_append ps _))
          simp only [balance_append, balance] at hrs
          omega
  | @negation ts t h ih =>
    obtain ⟨-, he⟩ | ⟨ps, rfl, he⟩ := List.cons_eq_append_iff.mp hts
    · cases he
    · exact ih he hrs
  | @binary n ls rs' l r symbol' hn hl hr ihl ihr =>
    obtain ⟨as, -, has⟩ | ⟨bs, hls, hbs⟩ := List.append_eq_append_iff.mp hts
    · obtain ⟨-, he⟩ | ⟨as, -, he⟩ := List.cons_eq_append_iff.mp has
      · cases he
        exact ⟨n, hn, le_rfl⟩
      · obtain ⟨m, hm, hle⟩ := ihr he hrs
        exact ⟨m, hm, Nat.le_of_succ_le hle⟩
    · obtain ⟨-, he⟩ | ⟨bs, rfl, he⟩ := List.cons_eq_append_iff.mp hbs
      · cases he
        exact ⟨n, hn, le_rfl⟩
      · have hright := hr.balance_eq
        rw [he, balance_append] at hrs
        simp only [balance] at hrs
        exact ihl hls (by omega)
  | lift _ _ ih =>
    obtain ⟨m, hm, hle⟩ := ih hts hrs
    exact ⟨m, hm, Nat.le_of_succ_le hle⟩

/-- Below the layer of `!`, the last operator of the layer is the root of the tree, if there is
one. -/
theorem binary_or_lift (h : Derives n ts t) (hn : n < 6) :
    (∃ ls symbol rs l r, ts = ls ++ .operator symbol :: rs ∧ t = .binary l symbol r ∧
      precedence? symbol = some n ∧ Derives n ls l ∧ Derives (n + 1) rs r) ∨
    Derives (n + 1) ts t := by
  cases h with
  | binary hn hl hr => exact .inl ⟨_, _, _, _, _, rfl, rfl, hn, hl, hr⟩
  | lift _ h => exact .inr h
  | _ => exact absurd hn (by decide)

theorem unary (h : Derives 6 ts t) :
    (∃ text, ts = [.primary text] ∧ t = .primary text) ∨
    (∃ us, ts = .opening :: (us ++ [.closing]) ∧ Derives 0 us t) ∨
    (∃ us u, ts = .bang :: us ∧ t = .negation u ∧ Derives 6 us u) := by
  cases h with
  | primary text => exact .inl ⟨text, rfl, rfl⟩
  | group h => exact .inr (.inl ⟨_, rfl, h⟩)
  | negation h => exact .inr (.inr ⟨_, _, rfl, rfl, h⟩)
  | binary hn _ _ => exact absurd (precedence?_lt hn) (by decide)
  | lift hn _ => exact absurd hn (by decide)

/-- The last operator of a layer is the same in all readings. -/
theorem split_unique {ls ls' rs' : List Token} {symbol' : String} {r r' : Tree}
    (he : ls ++ .operator symbol :: rs = ls' ++ .operator symbol' :: rs')
    (hsymbol : precedence? symbol = some n) (hsymbol' : precedence? symbol' = some n)
    (hr : Derives (n + 1) rs r) (hr' : Derives (n + 1) rs' r') :
    ls = ls' ∧ symbol = symbol' ∧ rs = rs' := by
  obtain ⟨as, hls, has⟩ | ⟨bs, hls, hbs⟩ := List.append_eq_append_iff.mp he
  · obtain ⟨rfl, he⟩ | ⟨as, rfl, he⟩ := List.cons_eq_append_iff.mp has
    · cases he
      simp [hls]
    · obtain ⟨m, hm, hle⟩ := hr.le_precedence he hr'.balance_eq
      obtain rfl := Option.some.inj (hm.symm.trans hsymbol')
      omega
  · obtain ⟨rfl, he⟩ | ⟨bs, rfl, he⟩ := List.cons_eq_append_iff.mp hbs
    · cases he
      simp [hls]
    · obtain ⟨m, hm, hle⟩ := hr'.le_precedence he hr.balance_eq
      obtain rfl := Option.some.inj (hm.symm.trans hsymbol)
      omega

theorem unique (h : Derives n ts t) (hu : Derives n ts u) : t = u := by
  induction h generalizing u with
  | primary text =>
    obtain ⟨text', he, rfl⟩ | ⟨us, he, -⟩ | ⟨us, u, he, -⟩ := hu.unary
    · cases he
      rfl
    · cases he
    · cases he
  | @group us t h ih =>
    obtain ⟨text', he, rfl⟩ | ⟨us', he, hu⟩ | ⟨us', u, he, -⟩ := hu.unary
    · cases he
    · obtain rfl : us = us' := by simpa using he
      exact ih hu
    · cases he
  | @negation us t h ih =>
    obtain ⟨text', he, rfl⟩ | ⟨us', he, -⟩ | ⟨us', u, he, rfl, hu⟩ := hu.unary
    · cases he
    · cases he
    · cases he
      rw [ih hu]
  | @binary n ls rs l r symbol hn hl hr ihl ihr =>
    obtain ⟨ls', symbol', rs', l', r', he, rfl, hn', hl', hr'⟩ | hu :=
      hu.binary_or_lift (precedence?_lt hn)
    · obtain ⟨rfl, rfl, rfl⟩ := split_unique he hn hn' hr hr'
      rw [ihl hl', ihr hr']
    · -- One layer further up this operator would not be allowed outside all parentheses.
      obtain ⟨m, hm, hle⟩ := hu.le_precedence rfl hr.balance_eq
      obtain rfl := Option.some.inj (hm.symm.trans hn)
      omega
  | @lift n ts t hn h ih =>
    obtain ⟨ls', symbol', rs', l', r', rfl, rfl, hn', hl', hr'⟩ | hu := hu.binary_or_lift hn
    · obtain ⟨m, hm, hle⟩ := h.le_precedence rfl hr'.balance_eq
      obtain rfl := Option.some.inj (hm.symm.trans hn')
      omega
    · exact ih hu

end Derives

end Wordy.Script
