import Wordy.Text.Blank
import Wordy.Text.Lowercase

/-! How a phrase is found at the start of a text: a space of the phrase stands for any run of
blanks, any other character for a character of the text that lowers to it, and the phrase has to end
where a word ends. -/

namespace Wordy.Phrase

open Text

/-- What is left of the text after the characters of the phrase. -/
def spelled? : List Char → List Char → Option (List Char)
  | [], text => some text
  | p :: phrase, c :: text =>
    if p = ' ' then
      if isBlank c then spelled? phrase (skipBlank text) else none
    else if lower c = [p] then spelled? phrase text else none
  | _ :: _, [] => none

/-- The next word after the phrase, when the text starts with the phrase. -/
def after? (phrase text : List Char) : Option (List Char) :=
  match spelled? phrase text with
  | some [] => some []
  | some (c :: rest) => if isBlank c then some (skipBlank rest) else none
  | none => none

theorem spelled?_suffix {phrase text rest : List Char} (h : spelled? phrase text = some rest) :
    rest <:+ text := by
  induction phrase generalizing text with
  | nil => simp_all [spelled?]
  | cons p phrase ih =>
    cases text with
    | nil => simp [spelled?] at h
    | cons c text =>
      simp only [spelled?] at h
      split at h
      · split at h
        · exact (ih h).trans ((skipBlank_suffix text).trans (List.suffix_cons c text))
        · cases h
      · split at h
        · exact (ih h).trans (List.suffix_cons c text)
        · cases h

theorem after?_suffix {phrase text rest : List Char} (h : after? phrase text = some rest) :
    rest <:+ text := by
  unfold after? at h
  split at h
  · next hs => cases h; exact spelled?_suffix hs
  · next c s hs =>
    split at h
    · cases h
      exact (skipBlank_suffix s).trans ((List.suffix_cons c s).trans (spelled?_suffix hs))
    · cases h
  · cases h

end Wordy.Phrase
