import Mathlib
import Wordy.Phrasebook
import Wordy.Proofs.WordBreaks

/-! Phrases as lists of words. A text starts with a phrase just when its first words are those of
the phrase, letter by letter in lower case, so that of two phrases that one text starts with the
words of one begin the words of the other. -/

namespace Wordy

namespace Text

def blankCodes : List Nat :=
  [9, 10, 11, 12, 13, 0x20, 0x85, 0xa0, 0x1680, 0x2000, 0x2001, 0x2002, 0x2003, 0x2004, 0x2005,
   0x2006, 0x2007, 0x2008, 0x2009, 0x200a, 0x2028, 0x2029, 0x202f, 0x205f, 0x3000]

theorem toNat_mem_blankCodes {c : Char} (h : isBlank c = true) : c.toNat ∈ blankCodes := by
  simp only [isBlank, Bool.or_eq_true, Bool.and_eq_true, decide_eq_true_eq, beq_iff_eq] at h
  simp only [blankCodes, List.mem_cons, List.not_mem_nil, or_false]
  omega

theorem lower_ofNat_of_mem_blankCodes :
    ∀ n ∈ blankCodes, lower (Char.ofNat n) = [Char.ofNat n] := by
  decide

theorem lower_of_isBlank {c : Char} (h : isBlank c = true) : lower c = [c] := by
  simpa using lower_ofNat_of_mem_blankCodes c.toNat (toNat_mem_blankCodes h)

theorem isBlank_of_lower {c x : Char} (h : lower c = [x]) (hx : isBlank x = false) :
    isBlank c = false := by
  by_contra hc
  have hb : isBlank c = true := by simpa using hc
  rw [lower_of_isBlank hb, List.singleton_inj] at h
  simp [h, hx] at hb

/-- Letter by letter, the text in lower case is the word. -/
def Lowers (v w : List Char) : Prop := v.map lower = w.map ([·])

instance (v w : List Char) : Decidable (Lowers v w) := by unfold Lowers; infer_instance

theorem Lowers.solid {v w : List Char} (h : Lowers v w) (hw : Solid w) : Solid v := by
  induction v generalizing w with
  | nil => simp [Solid]
  | cons c v ih =>
    cases w with
    | nil => simp [Lowers] at h
    | cons x w =>
      simp only [Lowers, List.map_cons, List.cons.injEq] at h
      intro d hd
      rcases List.mem_cons.mp hd with rfl | hd
      · exact isBlank_of_lower h.1 (hw x List.mem_cons_self)
      · exact ih h.2 (fun y hy => hw y (List.mem_cons_of_mem x hy)) d hd

theorem Lowers.right_unique {v w u : List Char} (hw : Lowers v w) (hu : Lowers v u) : w = u := by
  have h : w.map ([·]) = u.map ([·]) := hw.symm.trans hu
  exact List.map_injective_iff.mpr (fun _ _ h => List.singleton_injective h) h

end Text

namespace Phrase

open Text

def words (phrase : List Char) : List (List Char) := phrase.splitOn ' '

/-- The words are written as a phrase should be: none is empty or holds a blank. -/
def Plain (words : List (List Char)) : Prop := ∀ w ∈ words, w ≠ [] ∧ Solid w

/-- What is left of the text, from a word on, after the given words. -/
def afterWords? : List (List Char) → List Char → Option (List Char)
  | [], text => some text
  | w :: ws, text => if Lowers (word text) w then afterWords? ws (afterWord text) else none

theorem spelled?_append (p q text : List Char) :
    spelled? (p ++ q) text = (spelled? p text).bind (spelled? q) := by
  induction p generalizing text with
  | nil => rfl
  | cons x p ih =>
    cases text with
    | nil => rfl
    | cons c text =>
      simp only [List.cons_append, spelled?, ih]
      split
      · split <;> rfl
      · split <;> rfl

theorem spelled?_word_iff {w text rest : List Char} (hw : Solid w) :
    spelled? w text = some rest ↔ ∃ v, text = v ++ rest ∧ Lowers v w := by
  induction w generalizing text with
  | nil => simp [spelled?, Lowers, eq_comm]
  | cons x w ih =>
    have hx : x ≠ ' ' := by
      rintro rfl
      exact absurd (hw ' ' List.mem_cons_self) (by decide)
    have hw' : Solid w := fun y hy => hw y (List.mem_cons_of_mem x hy)
    cases text with
    | nil => simp [spelled?, Lowers]
    | cons c text =>
      rw [spelled?, if_neg hx]
      constructor
      · intro h
        split at h
        · next hc =>
          obtain ⟨v, rfl, hv⟩ := (ih hw').mp h
          exact ⟨c :: v, rfl, by simpa [Lowers, hc] using hv⟩
        · cases h
      · rintro ⟨v, ht, hv⟩
        cases v with
        | nil => simp [Lowers] at hv
        | cons d v =>
          obtain ⟨rfl, rfl⟩ := List.cons.inj ht
          simp only [Lowers, List.map_cons, List.cons.injEq] at hv
          rw [if_pos hv.1]
          exact (ih hw').mpr ⟨v, rfl, hv.2⟩

theorem spelled?_word_break_iff {w text rest : List Char} (hw : Solid w) (hr : Break rest) :
    spelled? w text = some rest ↔
      Lowers (word text) w ∧ rest = text.dropWhile (!isBlank ·) := by
  rw [spelled?_word_iff hw]
  constructor
  · rintro ⟨v, rfl, hv⟩
    have hs := hv.solid hw
    have hword := hs.word_append hr
    refine ⟨by rwa [hword], ?_⟩
    have h := word_append_dropWhile (v ++ rest)
    rw [hword] at h
    exact (List.append_cancel_left h).symm
  · rintro ⟨hv, rfl⟩
    exact ⟨word text, (word_append_dropWhile text).symm, hv⟩

theorem after?_word {w : List Char} (hw : Solid w) (text : List Char) :
    after? w text = if Lowers (word text) w then some (afterWord text) else none := by
  by_cases h : Lowers (word text) w
  · have hs := (spelled?_word_break_iff hw (break_dropWhile text)).mpr ⟨h, rfl⟩
    rw [if_pos h, after?, hs]
    cases hd : text.dropWhile (!isBlank ·) with
    | nil => simp [afterWord, hd, skipBlank]
    | cons c rest =>
      have hc : isBlank c = true := break_dropWhile text c (by simp [hd])
      simp [hc, afterWord, hd, skipBlank]
  · rw [if_neg h, after?]
    cases hs : spelled? w text with
    | none => rfl
    | some rest =>
      cases rest with
      | nil => exact absurd ((spelled?_word_break_iff hw .nil).mp hs).1 h
      | cons c rest =>
        by_cases hc : isBlank c = true
        · exact absurd ((spelled?_word_break_iff hw (.cons hc)).mp hs).1 h
        · simp [hc]

theorem after?_word_append {w : List Char} (hw : Solid w) (p text : List Char) :
    after? (w ++ ' ' :: p) text =
      if Lowers (word text) w ∧ text.dropWhile (!isBlank ·) ≠ [] then after? p (afterWord text)
      else none := by
  have hb := break_dropWhile text
  have hword : Lowers (word text) w → spelled? w text = some (text.dropWhile (!isBlank ·)) :=
    fun h => (spelled?_word_break_iff hw hb).mpr ⟨h, rfl⟩
  rw [after?, spelled?_append]
  cases hs : spelled? w text with
  | none =>
    rw [if_neg fun h => by simp [hword h.1] at hs]
    rfl
  | some rest =>
    cases rest with
    | nil =>
      rw [if_neg fun h => h.2 ((spelled?_word_break_iff hw .nil).mp hs).2.symm]
      rfl
    | cons c rest =>
      by_cases hc : isBlank c = true
      · obtain ⟨hl, hr⟩ := (spelled?_word_break_iff hw (.cons hc)).mp hs
        have ha : afterWord text = skipBlank rest := by
          rw [afterWord, ← hr, skipBlank, List.dropWhile_cons_of_pos hc, skipBlank]
        rw [if_pos ⟨hl, by simp [← hr]⟩, ha]
        simp [spelled?, hc, after?]
      · rw [if_neg]
        · simp [spelled?, hc]
        · rintro ⟨hl, -⟩
          rw [hword hl, Option.some.injEq] at hs
          exact hc (hb c (by simp [hs]))

/-- A phrase of plain words is found word by word. -/
theorem after?_eq_afterWords? {ws : List (List Char)} (h : Plain ws) (hne : ws ≠ [])
    (text : List Char) : after? ([' '].intercalate ws) text = afterWords? ws text := by
  induction ws generalizing text with
  | nil => exact absurd rfl hne
  | cons w ws ih =>
    have hw := (h w List.mem_cons_self).2
    cases ws with
    | nil => simpa [afterWords?, List.intercalate] using after?_word hw text
    | cons u us =>
      have hu := h u (by simp)
      have hi : [' '].intercalate (w :: u :: us) = w ++ ' ' :: [' '].intercalate (u :: us) := by
        simp [List.intercalate]
      rw [hi, after?_word_append hw, ih (fun v hv => h v (List.mem_cons_of_mem w hv)) (by simp)]
      by_cases hl : Lowers (word text) w
      · by_cases hd : text.dropWhile (!isBlank ·) = []
        · have hn : ¬ Lowers (word []) u := by
            intro he
            exact hu.1 (by simpa [Lowers, word] using he.symm)
          have ha : afterWord text = [] := by rw [afterWord, hd]; rfl
          rw [if_neg (by simp [hd]), afterWords?, if_pos hl, ha, afterWords?, if_neg hn]
        · rw [if_pos ⟨hl, hd⟩]
          conv_rhs => rw [afterWords?, if_pos hl]
      · rw [if_neg (by simp [hl]), afterWords?, if_neg hl]

theorem afterWords?_append (ws us : List (List Char)) (text : List Char) :
    afterWords? (ws ++ us) text = (afterWords? ws text).bind (afterWords? us) := by
  induction ws generalizing text with
  | nil => rfl
  | cons w ws ih =>
    simp only [List.cons_append, afterWords?, ih]
    split <;> rfl

theorem afterWords?_suffix {ws : List (List Char)} {text rest : List Char}
    (h : afterWords? ws text = some rest) : rest <:+ text := by
  induction ws generalizing text with
  | nil => simp_all [afterWords?]
  | cons w ws ih =>
    rw [afterWords?] at h
    split at h
    · exact (ih h).trans (afterWord_suffix text)
    · cases h

theorem skipBlank_of_afterWords? {ws : List (List Char)} (hne : ws ≠ []) {text rest : List Char}
    (h : afterWords? ws text = some rest) : skipBlank rest = rest := by
  induction ws generalizing text with
  | nil => exact absurd rfl hne
  | cons w ws ih =>
    rw [afterWords?] at h
    split at h
    · cases ws with
      | nil =>
        rw [← Option.some.inj h]
        exact skipBlank_afterWord text
      | cons u us => exact ih (by simp) h
    · cases h

/-- Two phrases that one text starts with begin alike, up to the end of the shorter one. -/
theorem afterWords?_comparable {ws us : List (List Char)} {text rest rest' : List Char}
    (hw : afterWords? ws text = some rest) (hu : afterWords? us text = some rest') :
    ws <+: us ∨ us <+: ws := by
  induction ws generalizing us text with
  | nil => exact .inl List.nil_prefix
  | cons w ws ih =>
    cases us with
    | nil => exact .inr List.nil_prefix
    | cons u us =>
      rw [afterWords?] at hw hu
      split at hw
      · next hlw =>
        split at hu
        · next hlu =>
          rw [hlw.right_unique hlu]
          simpa only [List.prefix_cons_inj] using ih hw hu
        · cases hu
      · cases hw

end Phrase

end Wordy
