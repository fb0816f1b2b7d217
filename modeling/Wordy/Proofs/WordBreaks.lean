import Mathlib
import Wordy.Text.Blank

/-! Where a text breaks into words. -/

namespace Wordy.Text

/-- A word that ends here is whole: the text ends too, or goes on with a blank. -/
def Break (s : List Char) : Prop := ∀ c ∈ s.head?, isBlank c = true

def Blank (s : List Char) : Prop := ∀ c ∈ s, isBlank c = true

def Solid (s : List Char) : Prop := ∀ c ∈ s, isBlank c = false

theorem Break.nil : Break [] := by simp [Break]

theorem Break.cons {c : Char} {s : List Char} (h : isBlank c = true) : Break (c :: s) := by
  simpa [Break] using h

theorem Blank.append {s t : List Char} (hs : Blank s) (ht : Blank t) : Blank (s ++ t) := by
  intro c hc
  rcases List.mem_append.mp hc with h | h
  · exact hs c h
  · exact ht c h

theorem Blank.skipBlank_append {s : List Char} (h : Blank s) (t : List Char) :
    skipBlank (s ++ t) = skipBlank t :=
  skipBlank_append_blank h

theorem skipBlank_eq_nil_iff {s : List Char} : skipBlank s = [] ↔ Blank s := by
  simp [skipBlank, List.dropWhile_eq_nil_iff, Blank]

theorem Solid.skipBlank_append {w : List Char} (h : Solid w) (hne : w ≠ []) (s : List Char) :
    skipBlank (w ++ s) = w ++ s := by
  cases w with
  | nil => exact absurd rfl hne
  | cons c w => simp [skipBlank, h c List.mem_cons_self]

theorem Solid.word_append {w s : List Char} (hw : Solid w) (hs : Break s) : word (w ++ s) = w := by
  induction w with
  | nil =>
    cases s with
    | nil => rfl
    | cons c s => simp [word, hs c (by simp)]
  | cons c w ih =>
    have hc := hw c List.mem_cons_self
    have := ih fun d hd => hw d (List.mem_cons_of_mem c hd)
    simpa [word, hc] using this

theorem Solid.afterWord_append {w s : List Char} (hw : Solid w) (hs : Break s) :
    afterWord (w ++ s) = skipBlank s := by
  induction w with
  | nil =>
    cases s with
    | nil => rfl
    | cons c s => simp [afterWord, hs c (by simp)]
  | cons c w ih =>
    have hc := hw c List.mem_cons_self
    have := ih fun d hd => hw d (List.mem_cons_of_mem c hd)
    simpa [afterWord, hc] using this

theorem solid_word (s : List Char) : Solid (word s) := by
  intro c hc
  simpa using List.mem_takeWhile_imp hc

theorem break_dropWhile (s : List Char) : Break (s.dropWhile (!isBlank ·)) := by
  intro c hc
  have := List.head?_dropWhile_not (!isBlank ·) s
  rw [Option.mem_def.mp hc] at this
  simpa using this

theorem word_append_dropWhile (s : List Char) : word s ++ s.dropWhile (!isBlank ·) = s :=
  List.takeWhile_append_dropWhile

/-- A text is its first word, a gap and what comes after; without a gap nothing comes after. -/
theorem exists_gap (s : List Char) :
    ∃ gap, Blank gap ∧ s = word s ++ (gap ++ afterWord s) ∧ (gap = [] → afterWord s = []) := by
  let t := s.dropWhile (!isBlank ·)
  have ht : Break t := break_dropWhile s
  refine ⟨t.takeWhile isBlank, fun c hc => List.mem_takeWhile_imp hc, ?_, ?_⟩
  · have : t.takeWhile isBlank ++ afterWord s = t := List.takeWhile_append_dropWhile
    rw [this, word_append_dropWhile]
  · intro h
    change skipBlank t = []
    cases hl : t with
    | nil => rfl
    | cons c l => simp [hl, ht c (by simp [hl])] at h

theorem word_skipBlank_ne_nil {s : List Char} (h : skipBlank s ≠ []) :
    word (skipBlank s) ≠ [] := by
  cases hs : skipBlank s with
  | nil => exact absurd hs h
  | cons c t =>
    have hc : isBlank c = false := by
      have := List.head?_dropWhile_not isBlank s
      rw [show s.dropWhile isBlank = c :: t from hs] at this
      simpa using this
    simp [word, hc]

theorem skipBlank_afterWord (s : List Char) : skipBlank (afterWord s) = afterWord s :=
  skipBlank_skipBlank _

end Wordy.Text
