import Mathlib
import Wordy.Proofs.Lexemes
import Wordy.Proofs.PhraseWords

/-! The standard phrases. Their words hold no letter that a character beyond ASCII lowers to, so
that a phrase is written with each letter in either case; a phrase of one word reserves that word;
and only four phrases begin with the words of another one. -/

namespace Wordy

open Text Phrase

namespace Text

/-- The letters of the standard phrases, and the comma. -/
def phraseLetters : List Char := ",abcdefghilmnopqrstuvwyz".toList

theorem lowerRuns_beyond_ascii :
    ∀ run ∈ CaseTable.lowerRuns, 128 ≤ run.2.2.2 ∨ run = (0x212a, 0x212a, 1, 0x6b) := by
  decide +kernel

theorem lower_of_ascii {c : Char} (h : c.toNat < 128) : lower c = [c.toLower] := by
  have hne : c ≠ 'İ' := by
    rintro rfl
    exact absurd h (by decide)
  rw [lower, if_neg hne, lowerChar, if_pos h]

theorem phraseLetters_ascii :
    (phraseLetters.all fun x =>
      x.toLower == x && x.toNat < 128 && x.toUpper.toNat < 128 && x != '\x00' && x != 'k') =
      true := by
  decide

theorem ofNat_lt_of_lt {n : Nat} (h : (Char.ofNat n).toNat < 128) (hn : 128 ≤ n) :
    Char.ofNat n = '\x00' := by
  by_cases hv : n.isValidChar
  · rw [Char.toNat_ofNat, if_pos hv] at h
    omega
  · simp [Char.ofNat, hv]
    rfl

theorem lowerChar_beyond_ascii {c : Char} (hc : 128 ≤ c.toNat) (h : (lowerChar c).toNat < 128) :
    lowerChar c = '\x00' ∨ lowerChar c = 'k' := by
  simp only [lowerChar, show ¬ c.toNat < 0x80 by omega, if_false] at h ⊢
  split at h
  · next first last step image hf =>
    have hm := List.mem_of_find?_eq_some hf
    have hp := List.find?_some hf
    rcases lowerRuns_beyond_ascii _ hm with hi | hi
    · exact .inl (ofNat_lt_of_lt h (by simp only at hi; omega))
    · simp only [Prod.mk.injEq] at hi
      obtain ⟨rfl, rfl, rfl, rfl⟩ := hi
      have : c.toNat = 0x212a := by simp at hp; omega
      right
      simp [this]
  · omega

theorem toLower_eq_iff {c x : Char} (hx : x.toLower = x) :
    c.toLower = x ↔ c = x ∨ c = x.toUpper := by
  constructor
  · rintro rfl
    by_cases hu : c.isUpper = true
    · have hl : ¬ c.isLower = true := by simpa using Char.not_isLower_of_isUpper hu
      right
      rw [Char.toUpper_toLower_eq_toUpper, Char.toUpper_eq_of_not_isLower hl]
    · exact .inl (Char.toLower_eq_of_not_isUpper hu).symm
  · rintro (rfl | rfl)
    · exact hx
    · rw [Char.toLower_toUpper_eq_toLower, hx]

theorem lower_eq_singleton_iff {c x : Char} (hx : x ∈ phraseLetters) :
    lower c = [x] ↔ c = x ∨ c = x.toUpper := by
  have hp := List.all_eq_true.mp phraseLetters_ascii x hx
  simp only [Bool.and_eq_true, beq_iff_eq, decide_eq_true_eq, bne_iff_ne] at hp
  obtain ⟨⟨⟨⟨hl, hlt⟩, hu⟩, hz⟩, hk⟩ := hp
  by_cases hc : c.toNat < 128
  · rw [lower_of_ascii hc, List.singleton_inj, toLower_eq_iff hl]
  · have hne : ¬ (c = x ∨ c = x.toUpper) := by
      rintro (rfl | rfl)
      · exact hc hlt
      · exact hc hu
    refine iff_of_false (fun h => ?_) hne
    unfold lower at h
    split at h
    · simp at h
    · rw [List.singleton_inj] at h
      have hb := lowerChar_beyond_ascii (Nat.le_of_not_lt hc) (by rw [h]; exact hlt)
      rw [h] at hb
      exact hb.elim hz hk

end Text

namespace Token

def words (token : Token) : List (List Char) := Phrase.words token.phrase.toList

theorem mem_spelled {token : Token} : token ∈ spelled ↔ token ≠ endOfInput := by
  cases token <;> decide

theorem words_spelled :
    (spelled.all fun token => token.words != [] && token.words.all fun w =>
      w != [] && w.all fun c => !isBlank c && phraseLetters.contains c) = true := by
  decide +kernel

theorem intercalate_words (token : Token) :
    [' '].intercalate token.words = token.phrase.toList :=
  List.intercalate_splitOn ' '

theorem words_ne_nil (token : Token) : token.words ≠ [] := List.splitOn_ne_nil _ _

theorem plain_words {token : Token} (h : token ∈ spelled) : Plain token.words := by
  have hs := List.all_eq_true.mp words_spelled token h
  simp only [Bool.and_eq_true, List.all_eq_true] at hs
  intro w hw
  obtain ⟨hne, hc⟩ := hs.2 w hw
  exact ⟨by simpa using hne, fun c hm => by simpa using (hc c hm).1⟩

theorem mem_phraseLetters {token : Token} (h : token ∈ spelled) {w : List Char}
    (hw : w ∈ token.words) {c : Char} (hc : c ∈ w) : c ∈ phraseLetters := by
  have hs := List.all_eq_true.mp words_spelled token h
  simp only [Bool.and_eq_true, List.all_eq_true] at hs
  simpa using ((hs.2 w hw).2 c hc).2

/-- The phrases that begin with the words of another one, after that one. -/
def extensions : List (Token × Token) :=
  [(toWord, toBe), (notWord, notEqualTo), (greaterThan, greaterThanOrEqualTo),
   (lessThan, lessThanOrEqualTo)]

/-- The comparisons that go on with "or equal to", before those. -/
def comparisons : List (Token × Token) :=
  [(greaterThan, greaterThanOrEqualTo), (lessThan, lessThanOrEqualTo)]

section

variable {t u v : Token}

theorem comparisons_irrefl : (t, t) ∉ comparisons := by
  cases t <;> decide

theorem comparisons_asymm (h : (t, u) ∈ comparisons) : (u, t) ∉ comparisons := by
  simp only [comparisons, List.mem_cons, Prod.mk.injEq, List.not_mem_nil, or_false] at h
  rcases h with ⟨rfl, rfl⟩ | ⟨rfl, rfl⟩ <;> decide

theorem comparisons_unique (ht : (t, v) ∈ comparisons) (hu : (u, v) ∈ comparisons) : t = u := by
  simp only [comparisons, List.mem_cons, Prod.mk.injEq, List.not_mem_nil, or_false] at ht hu
  rcases ht with ⟨rfl, rfl⟩ | ⟨rfl, rfl⟩ <;> simp_all

end

theorem words_prefix_spelled :
    (spelled.all fun t => spelled.all fun u =>
      !(t.words.isPrefixOf u.words) || t == u || extensions.contains (t, u)) = true := by
  decide +kernel

theorem words_prefix {t u : Token} (ht : t ∈ spelled) (hu : u ∈ spelled)
    (h : t.words <+: u.words) : t = u ∨ (t, u) ∈ extensions := by
  have hs := List.all_eq_true.mp (List.all_eq_true.mp words_prefix_spelled t ht) u hu
  simpa [List.isPrefixOf_iff_prefix.mpr h] using hs

/-- No text can start with both. -/
def Apart (t u : Token) : Prop := t ≠ u ∧ (t, u) ∉ extensions ∧ (u, t) ∉ extensions

instance (t u : Token) : Decidable (Apart t u) := by unfold Apart; infer_instance

theorem Apart.symm {t u : Token} (h : Apart t u) : Apart u t := ⟨h.1.symm, h.2.2, h.2.1⟩

end Token

namespace Phrasebook

theorem standard_phrase? {token : Token} (h : token ∈ Token.spelled) :
    standard.phrase? token = some token.phrase := by
  cases token <;> first | rfl | exact absurd h (by decide)

theorem standard_form (token : Token) : standard.form token = token.phrase := by
  cases token <;> rfl

theorem standard_after? {token : Token} (h : token ∈ Token.spelled) (text : List Char) :
    standard.after? token text = afterWords? token.words text := by
  rw [after?, if_neg (Token.mem_spelled.mp h), standard_phrase? h]
  simp only
  rw [← Token.intercalate_words,
    after?_eq_afterWords? (Token.plain_words h) (Token.words_ne_nil token)]

theorem standard_after?_nil {token : Token} (h : token ∈ Token.spelled) :
    standard.after? token [] = none := by
  rw [standard_after? h]
  cases hw : token.words with
  | nil => exact absurd hw (Token.words_ne_nil token)
  | cons w ws =>
    have hne := (Token.plain_words h w (by simp [hw])).1
    rw [afterWords?, if_neg]
    intro he
    exact hne (by simpa [Lowers, word] using he.symm)

theorem standard_after?_eq_none {t u : Token} (h : t.Apart u) {text rest : List Char}
    (ht : standard.after? t text = some rest) : standard.after? u text = none := by
  by_contra hn
  obtain ⟨rest', hu⟩ := Option.ne_none_iff_exists'.mp hn
  by_cases hte : t = .endOfInput
  · subst hte
    obtain ⟨rfl, -⟩ := after?_endOfInput.mp ht
    rw [standard_after?_nil (Token.mem_spelled.mpr h.1.symm)] at hu
    cases hu
  · by_cases hue : u = .endOfInput
    · subst hue
      obtain ⟨rfl, -⟩ := after?_endOfInput.mp hu
      rw [standard_after?_nil (Token.mem_spelled.mpr hte)] at ht
      cases ht
    · have hts := Token.mem_spelled.mpr hte
      have hus := Token.mem_spelled.mpr hue
      rw [standard_after? hts] at ht
      rw [standard_after? hus] at hu
      rcases afterWords?_comparable ht hu with hp | hp
      · exact (Token.words_prefix hts hus hp).elim h.1 h.2.1
      · exact (Token.words_prefix hus hts hp).elim (fun e => h.1 e.symm) h.2.2

/-- A comparison that goes on with "or equal to" goes on with "or". -/
theorem standard_after?_or {t u : Token}
    (h : (t, u) ∈ Token.comparisons) {text rest rest' : List Char}
    (ht : standard.after? t text = some rest) (hu : standard.after? u text = some rest') :
    ∃ r, standard.after? .orWord rest = some r := by
  have hw : t ∈ Token.spelled ∧ u ∈ Token.spelled ∧
      u.words = t.words ++ Token.orWord.words ++ Token.equalTo.words := by
    simp only [Token.comparisons, List.mem_cons, Prod.mk.injEq, List.not_mem_nil, or_false] at h
    rcases h with ⟨rfl, rfl⟩ | ⟨rfl, rfl⟩ <;> decide
  obtain ⟨hts, hus, hw⟩ := hw
  rw [standard_after? hts] at ht
  rw [standard_after? hus, hw, List.append_assoc, afterWords?_append, ht, Option.bind_some,
    afterWords?_append, Option.bind_eq_some_iff] at hu
  obtain ⟨r, hr, -⟩ := hu
  exact ⟨r, by rwa [standard_after? (by decide)]⟩

end Phrasebook

namespace Text

theorem lowercaseAfter_of_lowers {v w : List Char} (h : Lowers v w) (hs : 'σ' ∉ w)
    (before : List Char) : lowercaseAfter before v = w := by
  induction v generalizing w before with
  | nil =>
    have hw : w = [] := by simpa [Lowers] using h.symm
    rw [hw, lowercaseAfter]
  | cons c v ih =>
    cases w with
    | nil => simp [Lowers] at h
    | cons x w =>
      simp only [Lowers, List.map_cons, List.cons.injEq] at h
      simp only [List.mem_cons, not_or] at hs
      have hc : c ≠ 'Σ' := by
        rintro rfl
        have : lower 'Σ' = ['σ'] := by decide
        rw [this, List.singleton_inj] at h
        exact hs.1 h.1
      rw [lowercaseAfter, if_neg hc, h.1, ih h.2 hs.2]
      rfl

theorem lowercase_of_lowers {v w : List Char} (h : Lowers v w) (hs : 'σ' ∉ w) :
    lowercase v = w :=
  lowercaseAfter_of_lowers h hs []

end Text

namespace Phrasebook

theorem isReserved_of_after? {token : Token} (h : token ∈ Token.spelled)
    (hl : token.words.length = 1) {text rest : List Char}
    (ht : standard.after? token text = some rest) : standard.isReserved (word text) = true := by
  obtain ⟨w, hw⟩ := List.length_eq_one_iff.mp hl
  rw [standard_after? h, hw, afterWords?] at ht
  split at ht
  · next hlow =>
    have hs : 'σ' ∉ w := fun hm =>
      absurd (Token.mem_phraseLetters h (by simp [hw]) hm) (by decide)
    have hp : token.phrase.toList = w := by
      rw [← Token.intercalate_words, hw]
      simp [List.intercalate]
    refine List.any_eq_true.mpr ⟨⟨token.phrase, token⟩, ?_, ?_⟩
    · exact List.mem_map.mpr ⟨token, h, rfl⟩
    · change (token.phrase.toList == lowercase (word text)) = true
      rw [hp, lowercase_of_lowers hlow hs]
      exact beq_self_eq_true w
  · cases ht

end Phrasebook

end Wordy
