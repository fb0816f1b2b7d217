import Mathlib
import Wordy.Lexeme
import Wordy.Reader
import Wordy.Proofs.WordBreaks

/-! Texts as lists of lexemes, as the readers cut them. Which lexeme comes next is not decided by
the text alone: a word can also begin a phrase, and a quote a name. -/

namespace Wordy

open Text

theorem Reader.quoted?_eq_some {s contents rest : List Char}
    (h : Reader.quoted? s = some (contents, rest)) :
    ∃ quote, Reader.isQuote quote = true ∧ quote ∉ contents ∧
      s = quote :: (contents ++ quote :: rest) := by
  cases s with
  | nil => simp [Reader.quoted?] at h
  | cons quote text =>
    rw [Reader.quoted?] at h
    split at h
    · next hq =>
      split at h
      · cases h
      · next c after hd =>
        simp only [Option.some.injEq, Prod.mk.injEq] at h
        obtain ⟨rfl, rfl⟩ := h
        have hc : c = quote := by
          have := List.head?_dropWhile_not (· != quote) text
          rw [hd] at this
          simpa using this
        refine ⟨quote, hq, fun hm => ?_, ?_⟩
        · simpa using List.mem_takeWhile_imp hm
        · rw [← hc, ← hd, hc, List.takeWhile_append_dropWhile]
    · cases h

theorem Reader.quoted?_suffix {s contents rest : List Char}
    (h : Reader.quoted? s = some (contents, rest)) : rest <:+ s := by
  obtain ⟨quote, -, -, hs⟩ := Reader.quoted?_eq_some h
  exact ⟨quote :: (contents ++ [quote]), by simp [hs]⟩

theorem Phrasebook.after?_suffix {book : Phrasebook} {t : Token} {text rest : List Char}
    (h : book.after? t text = some rest) : rest <:+ text := by
  unfold after? at h
  split at h
  · split at h
    · cases h
      exact List.nil_suffix
    · cases h
  · split at h
    · exact Phrase.after?_suffix h
    · cases h

theorem Reader.quoted?_append {quote : Char} {contents rest : List Char}
    (hq : isQuote quote = true) (hc : quote ∉ contents) :
    quoted? (quote :: (contents ++ quote :: rest)) = some (contents, rest) := by
  have hall : ∀ c ∈ contents, (c != quote) = true := by
    intro c hm
    rw [bne_iff_ne]
    rintro rfl
    exact hc hm
  rw [quoted?, if_pos hq, List.dropWhile_append_of_pos hall, List.takeWhile_append_of_pos hall]
  simp

/-- The text, from its next word on, starts with the lexeme and goes on with the rest. -/
inductive Lexeme.Next (book : Phrasebook) (text : List Char) : Lexeme → List Char → Prop
  | token {t : Token} {rest : List Char} (h : book.after? t (skipBlank text) = some rest) :
      Next book text (.token t) rest
  | word (hne : skipBlank text ≠ [])
      (hr : book.isReserved (Text.word (skipBlank text)) = false) :
      Next book text (.word (.ofList (Text.word (skipBlank text)))) (afterWord (skipBlank text))
  | quotation {contents rest : List Char}
      (h : Reader.quoted? (skipBlank text) = some (contents, rest)) :
      Next book text (.quotation (.ofList contents)) (skipBlank rest)

inductive Reads (book : Phrasebook) : List Lexeme → List Char → List Char → Prop
  | nil {text : List Char} : Reads book [] text text
  | cons {l : Lexeme} {ls : List Lexeme} {text mid rest : List Char} (h : l.Next book text mid)
      (hs : Reads book ls mid rest) : Reads book (l :: ls) text rest

namespace Reads

variable {book : Phrasebook} {l : Lexeme} {ls ms : List Lexeme} {text mid rest : List Char}

theorem single (h : l.Next book text rest) : Reads book [l] text rest := .cons h .nil

theorem append (hl : Reads book ls text mid) (hm : Reads book ms mid rest) :
    Reads book (ls ++ ms) text rest := by
  induction hl with
  | nil => exact hm
  | cons h _ ih => exact .cons h (ih hm)

theorem of_append (h : Reads book (ls ++ ms) text rest) :
    ∃ mid, Reads book ls text mid ∧ Reads book ms mid rest := by
  induction ls generalizing text with
  | nil => exact ⟨text, .nil, h⟩
  | cons l ls ih =>
    cases h with
    | cons h hs =>
      obtain ⟨mid, hl, hm⟩ := ih hs
      exact ⟨mid, .cons h hl, hm⟩

end Reads

namespace Phrasebook

variable {book : Phrasebook} {text rest : List Char} {α : Type} {token : α → Token}
  {values : List α}

theorem after?_endOfInput :
    book.after? .endOfInput text = some rest ↔ text = [] ∧ rest = [] := by
  by_cases h : text = [] <;> simp [after?, h, eq_comm]

theorem mem_of_first_eq_some {value : α}
    (h : (book.first text token values).2 = some (value, rest)) :
    value ∈ values ∧ book.after? (token value) text = some rest := by
  induction values with
  | nil => simp [first] at h
  | cons v values ih =>
    rw [first] at h
    split at h
    · next rest' ha =>
      simp only [Option.some.injEq, Prod.mk.injEq] at h
      obtain ⟨rfl, rfl⟩ := h
      exact ⟨List.mem_cons_self, ha⟩
    · exact ⟨List.mem_cons_of_mem v (ih h).1, (ih h).2⟩

theorem first_eq_none (h : ∀ value ∈ values, book.after? (token value) text = none) :
    book.first text token values = (values.map token, none) := by
  induction values with
  | nil => rfl
  | cons v values ih =>
    rw [first, h v List.mem_cons_self, ih fun u hu => h u (List.mem_cons_of_mem v hu)]
    rfl

theorem after?_eq_none_of_first (h : (book.first text token values).2 = none) :
    ∀ value ∈ values, book.after? (token value) text = none := by
  induction values with
  | nil => simp
  | cons v values ih =>
    rw [first] at h
    split at h
    · cases h
    · next hv =>
      intro u hu
      rcases List.mem_cons.mp hu with rfl | hu
      · exact hv
      · exact ih h u hu

theorem first_append_cons {earlier later : List α} {value : α}
    (he : ∀ v ∈ earlier, book.after? (token v) text = none)
    (h : book.after? (token value) text = some rest) :
    book.first text token (earlier ++ value :: later) =
      (earlier.map token, some (value, rest)) := by
  induction earlier with
  | nil => simp [first, h]
  | cons v earlier ih =>
    rw [List.cons_append, first, he v List.mem_cons_self,
      ih fun u hu => he u (List.mem_cons_of_mem v hu)]
    rfl

/-- The value is found where no other value is. -/
theorem first_of_unique [DecidableEq α] {value : α} (hm : value ∈ values)
    (hu : ∀ v ∈ values, v ≠ value → book.after? (token v) text = none)
    (h : book.after? (token value) text = some rest) :
    (book.first text token values).2 = some (value, rest) := by
  obtain ⟨earlier, later, rfl, hne⟩ := List.eq_append_cons_of_mem hm
  rw [first_append_cons _ h]
  intro v hv
  exact hu v (by simp [hv]) fun he => hne (he ▸ hv)

end Phrasebook

end Wordy
