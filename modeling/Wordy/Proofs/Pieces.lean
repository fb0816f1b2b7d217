import Mathlib
import Wordy.Layout
import Wordy.Proofs.Literals

/-! Scripts cut into pieces. A piece is a word, a literal or a single other character; spaces and
tabs part words and are dropped, line breaks are kept. These are not the tokens of the language: a
hyphen or a point belongs to the word that it stands in, since names and numerals hold both. -/

namespace Wordy

open Text

namespace Script

inductive Piece
  | word (w : List Char)
  /-- What the literal stands for. -/
  | literal (units : List Nat)
  | mark (c : Char)
deriving DecidableEq, Repr

def isWordChar (c : Char) : Bool := c.isAlphanum || c == '_' || c == '-' || c == '.'

def cut : List Char → List Piece
  | [] => []
  | c :: s =>
    if isWordChar c then .word (c :: s.takeWhile isWordChar) :: cut (s.dropWhile isWordChar)
    else if c = ' ' ∨ c = '\t' then cut s
    else if c = '\x22' then
      match _h : literal? s with
      | some (units, rest) => .literal units :: cut rest
      | none => .mark c :: cut s
    else .mark c :: cut s
termination_by s => s.length
decreasing_by
  · exact Nat.lt_succ_of_le (List.length_dropWhile_le _ _)
  · exact Nat.lt_succ_self _
  · exact (length_of_literal? _h).trans (Nat.lt_succ_self _)
  · exact Nat.lt_succ_self _
  · exact Nat.lt_succ_self _

variable {c : Char} {s w : List Char}

@[simp] theorem cut_nil : cut [] = [] := by rw [cut]

@[simp] theorem cut_cons_word (h : isWordChar c = true) :
    cut (c :: s) = .word (c :: s.takeWhile isWordChar) :: cut (s.dropWhile isWordChar) := by
  rw [cut, if_pos h]

theorem cut_word (hw : ∀ c ∈ w, isWordChar c = true) (hne : w ≠ [])
    (hs : ∀ c ∈ s.head?, isWordChar c = false) : cut (w ++ s) = .word w :: cut s := by
  cases w with
  | nil => exact absurd rfl hne
  | cons c w =>
    have hw' : ∀ d ∈ w, isWordChar d = true := fun d hd => hw d (List.mem_cons_of_mem c hd)
    have htake : s.takeWhile isWordChar = [] := by cases s <;> simp_all
    have hdrop : s.dropWhile isWordChar = s := by cases s <;> simp_all
    rw [List.cons_append, cut_cons_word (hw c List.mem_cons_self),
      List.takeWhile_append_of_pos hw', List.dropWhile_append_of_pos hw', htake, hdrop,
      List.append_nil]

@[simp] theorem cut_blank (h : c = ' ' ∨ c = '\t') : cut (c :: s) = cut s := by
  rw [cut, if_neg (by rcases h with rfl | rfl <;> decide), if_pos h]

@[simp] theorem cut_mark (hw : isWordChar c = false) (hb : ¬(c = ' ' ∨ c = '\t'))
    (hq : c ≠ '\x22') : cut (c :: s) = .mark c :: cut s := by
  rw [cut, if_neg (by simp [hw]), if_neg hb, if_neg hq]

theorem cut_quote (t : String) :
    cut ((quote t).toList ++ s) = .literal (codeUnits t.toList) :: cut s := by
  have h : (quote t).toList ++ s = '\x22' :: (t.toList.flatMap escape ++ '\x22' :: s) := by
    simp [quote]
  rw [h, cut, if_neg (by decide), if_neg (by decide), if_pos rfl]
  split
  · next hl =>
    rw [literal?_quote] at hl
    cases hl
    rfl
  · next hl => simp [literal?_quote] at hl

/-- The text is cut into the pieces, if no word goes on behind it. -/
def Cuts (text : List Char) (ps : List Piece) : Prop :=
  ∀ s, (∀ c ∈ s.head?, isWordChar c = false) → cut (text ++ s) = ps ++ cut s

theorem Cuts.cut_append {text : List Char} {ps : List Piece} (h : Cuts text ps)
    (hc : isWordChar c = false) : cut (text ++ c :: s) = ps ++ cut (c :: s) :=
  h (c :: s) (by simpa using hc)

def commaSeparated : List (List Piece) → List Piece
  | [] => []
  | part :: parts => part ++ parts.flatMap (.mark ',' :: ·)

theorem cuts_intercalate {α : Type} {f : α → String} {g : α → List Piece} {as : List α}
    (h : ∀ a ∈ as, Cuts (f a).toList (g a)) :
    Cuts (", ".intercalate (as.map f)).toList (commaSeparated (as.map g)) := by
  intro s hs
  induction as with
  | nil => simp [commaSeparated]
  | cons a as ih =>
    obtain ⟨ha, has⟩ := List.forall_mem_cons.mp h
    cases as with
    | nil => simpa [commaSeparated] using ha s hs
    | cons b as =>
      have hlater := ih has
      have hcomma (t : List Char) : cut (", ".toList ++ t) = .mark ',' :: cut t := by
        simp [isWordChar]
      simp only [List.map_cons] at hlater ⊢
      simp only [String.intercalate_cons_cons, String.toList_append, List.append_assoc]
      rw [ha _ (by simp [isWordChar]), hcomma, hlater]
      simp [commaSeparated]

/-- The lines are cut one by one into the pieces, however deep they stand. -/
inductive Rows : List Line → List Piece → Prop
  | nil : Rows [] []
  | cons {l : Line} {ls : List Line} {ps qs : List Piece}
      (h : ∀ s, cut (l.text.toList ++ '\n' :: s) = ps ++ cut s) (hs : Rows ls qs) :
      Rows (l :: ls) (ps ++ qs)

namespace Rows

variable {l : Line} {ls ms : List Line} {ps qs : List Piece}

theorem single (h : ∀ s, cut (l.text.toList ++ '\n' :: s) = ps ++ cut s) : Rows [l] ps := by
  simpa using Rows.cons h .nil

theorem append (h : Rows ls ps) (hm : Rows ms qs) : Rows (ls ++ ms) (ps ++ qs) := by
  induction h with
  | nil => exact hm
  | cons h _ ih => simpa using Rows.cons h ih

theorem block (h : Rows ls ps) : Rows (block ls) ps := by
  induction h with
  | nil => exact .nil
  | cons h _ ih => exact .cons h ih

theorem cut_layout (h : Rows ls ps) : cut (layout "\t" ls).toList = ps := by
  induction h with
  | nil => simp [layout]
  | cons h _ ih =>
    have htab (s : List Char) : cut ("\t".toList ++ s) = cut s := by simp
    rw [toList_layout_cons, skip_indentation htab, h, ih]

end Rows

end Script

end Wordy
