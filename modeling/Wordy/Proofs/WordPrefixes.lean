import Mathlib
import Wordy.Proofs.Calls

/-! Matching as a question about words. The words of a text are what stands between its blanks. A
token is read exactly where the first words of the text that is left are those of its phrase, letter
by letter in lower case, and the cursor goes on to the start of the next word. -/

namespace Wordy

open Text

namespace Text

/-- The words of a text, in their order. -/
def splitWords (s : List Char) : List (List Char) := (s.splitOnP isBlank).filter (· ≠ [])

theorem splitWords_append_cons (s t : List Char) {c : Char} (hc : isBlank c = true) :
    splitWords (s ++ c :: t) = splitWords s ++ splitWords t := by
  rw [splitWords, List.splitOnP_append_cons s t hc, List.filter_append]
  rfl

theorem splitWords_cons {c : Char} (hc : isBlank c = true) (s : List Char) :
    splitWords (c :: s) = splitWords s :=
  splitWords_append_cons [] s hc

theorem splitWords_skipBlank (s : List Char) : splitWords (skipBlank s) = splitWords s := by
  induction s with
  | nil => rfl
  | cons c s ih =>
    by_cases hc : isBlank c = true
    · rw [splitWords_cons hc, skipBlank, List.dropWhile_cons_of_pos hc, ← ih, skipBlank]
    · rw [skipBlank, List.dropWhile_cons_of_neg hc]

theorem splitWords_append {w rest : List Char} (hne : w ≠ []) (hw : Solid w) (hb : Break rest) :
    splitWords (w ++ rest) = w :: splitWords rest := by
  have hsingle : splitWords w = [w] := by
    rw [splitWords, List.splitOnP_eq_singleton hw]
    simp [hne]
  cases rest with
  | nil => rw [List.append_nil, hsingle]; rfl
  | cons c rest =>
    have hc : isBlank c = true := hb c rfl
    rw [splitWords_append_cons w rest hc, splitWords_cons hc, hsingle, List.singleton_append]

theorem splitWords_eq_cons {s : List Char} (hs : skipBlank s = s) (hne : s ≠ []) :
    splitWords s = word s :: splitWords (afterWord s) := by
  have hword : word s ≠ [] := by
    rw [← hs]
    exact word_skipBlank_ne_nil (by rwa [hs])
  have hsplit := splitWords_append hword (solid_word s) (break_dropWhile s)
  rw [word_append_dropWhile] at hsplit
  rw [hsplit, afterWord, splitWords_skipBlank]

theorem flatten_splitOnP (p : Char → Bool) (s : List Char) :
    (s.splitOnP p).flatten = s.filter (!p ·) := by
  induction s with
  | nil => rfl
  | cons c s ih =>
    rw [List.splitOnP_cons_eq_if_modifyHead]
    obtain ⟨w, ws, hws⟩ := List.exists_cons_of_ne_nil (List.splitOnP_ne_nil p s)
    rw [hws, List.flatten_cons] at ih
    by_cases hc : p c = true
    · simp [hc, hws, ih]
    · simp [hc, hws, ih]

/-- The words hold the characters of the text but the blanks. -/
theorem flatten_splitWords (s : List Char) : (splitWords s).flatten = s.filter (!isBlank ·) := by
  rw [splitWords, List.flatten_filter_ne_nil, flatten_splitOnP]

theorem skipBlank_eq_self_iff {s : List Char} :
    skipBlank s = s ↔ ∀ c ∈ s.head?, isBlank c = false := by
  cases s with
  | nil => simp [skipBlank]
  | cons c s =>
    by_cases hc : isBlank c = true
    · have hlength := (skipBlank_suffix s).length_le
      refine iff_of_false (fun h => ?_) (by simp [hc])
      rw [skipBlank, List.dropWhile_cons_of_pos hc] at h
      rw [skipBlank, h, List.length_cons] at hlength
      omega
    · simp [skipBlank, hc]

/-- What is left of the text from the start of its word of that number on, the first word being that
of zero, or from its end on where it has no such word. -/
structure StartsAt (n : Nat) (s rest : List Char) : Prop where
  suffix : rest <:+ s
  words : splitWords rest = (splitWords s).drop n
  no_blank : ∀ c ∈ rest.head?, isBlank c = false

namespace StartsAt

variable {n : Nat} {s t rest rest' : List Char}

theorem zero (s : List Char) : StartsAt 0 s (skipBlank s) where
  suffix := skipBlank_suffix s
  words := by rw [splitWords_skipBlank, List.drop_zero]
  no_blank := skipBlank_eq_self_iff.mp (skipBlank_skipBlank s)

theorem succ (hs : skipBlank s = s) (hne : s ≠ []) (h : StartsAt n (afterWord s) rest) :
    StartsAt (n + 1) s rest where
  suffix := h.suffix.trans (afterWord_suffix s)
  words := by rw [splitWords_eq_cons hs hne, List.drop_succ_cons, h.words]
  no_blank := h.no_blank

theorem of_skipBlank (h : StartsAt n (skipBlank s) rest) : StartsAt n s rest where
  suffix := h.suffix.trans (skipBlank_suffix s)
  words := by rw [h.words, splitWords_skipBlank]
  no_blank := h.no_blank

theorem eq_of_append {before : List Char} (h : StartsAt n s (before ++ rest))
    (h' : StartsAt n s rest) : before = [] := by
  have hfilter := congrArg List.flatten (h.words.trans h'.words.symm)
  rw [flatten_splitWords, flatten_splitWords, List.filter_append, List.append_left_eq_self,
    List.filter_eq_nil_iff] at hfilter
  cases before with
  | nil => rfl
  | cons c before =>
    have hc := h.no_blank c rfl
    exact absurd hc (by simpa using hfilter c List.mem_cons_self)

theorem unique (h : StartsAt n s rest) (h' : StartsAt n s rest') : rest = rest' := by
  rcases List.suffix_or_suffix_of_suffix h.suffix h'.suffix with ⟨before, rfl⟩ | ⟨before, rfl⟩
  · rw [eq_of_append h' h, List.nil_append]
  · rw [eq_of_append h h', List.nil_append]

end StartsAt

/-- The first words of the text are the given ones, letter by letter in lower case. -/
def BeginsAs (ws : List (List Char)) (s : List Char) : Prop :=
  ∃ vs, vs <+: splitWords s ∧ List.Forall₂ Lowers vs ws

theorem beginsAs_nil (s : List Char) : BeginsAs [] s := ⟨[], List.nil_prefix, .nil⟩

theorem not_beginsAs_cons (w : List Char) (ws : List (List Char)) : ¬ BeginsAs (w :: ws) [] := by
  rintro ⟨vs, hprefix, hlowers⟩
  obtain rfl : vs = [] := List.prefix_nil.mp hprefix
  cases hlowers

theorem beginsAs_cons_iff {w : List Char} {ws : List (List Char)} {s : List Char}
    (hs : skipBlank s = s) (hne : s ≠ []) :
    BeginsAs (w :: ws) s ↔ Lowers (word s) w ∧ BeginsAs ws (afterWord s) := by
  unfold BeginsAs
  rw [splitWords_eq_cons hs hne]
  constructor
  · rintro ⟨vs, hprefix, hlowers⟩
    cases hlowers with
    | cons hw hws =>
      obtain ⟨rfl, htail⟩ := List.cons_prefix_cons.mp hprefix
      exact ⟨hw, _, htail, hws⟩
  · rintro ⟨hw, vs, hprefix, hws⟩
    exact ⟨word s :: vs, List.cons_prefix_cons.mpr ⟨rfl, hprefix⟩, .cons hw hws⟩

end Text

namespace Phrase

variable {ws : List (List Char)} {s rest : List Char}

theorem isSome_afterWords?_iff (h : Plain ws) (hs : skipBlank s = s) :
    (afterWords? ws s).isSome = true ↔ BeginsAs ws s := by
  induction ws generalizing s with
  | nil => exact iff_of_true rfl (beginsAs_nil s)
  | cons w ws ih =>
    by_cases hne : s = []
    · have hw := (h w List.mem_cons_self).1
      have hno : ¬ Lowers (word []) w := fun hl => hw (by simpa [Lowers, word] using hl.symm)
      rw [hne, afterWords?, if_neg hno]
      exact iff_of_false Bool.false_ne_true (not_beginsAs_cons w ws)
    · have hws : Plain ws := fun v hv => h v (List.mem_cons_of_mem w hv)
      rw [afterWords?, beginsAs_cons_iff hs hne, ← ih hws (skipBlank_afterWord s)]
      split_ifs with hl <;> simp [hl]

theorem startsAt_of_afterWords? (h : Plain ws) (hs : skipBlank s = s)
    (ha : afterWords? ws s = some rest) : StartsAt ws.length s rest := by
  induction ws generalizing s with
  | nil =>
    have hzero := StartsAt.zero s
    rw [hs] at hzero
    rwa [← Option.some.inj ha]
  | cons w ws ih =>
    have hw := (h w List.mem_cons_self).1
    have hws : Plain ws := fun v hv => h v (List.mem_cons_of_mem w hv)
    rw [afterWords?] at ha
    split_ifs at ha with hl
    have hne : s ≠ [] := by
      rintro rfl
      exact hw (by simpa [Lowers, word] using hl.symm)
    exact .succ hs hne (ih hws (skipBlank_afterWord s) ha)

end Phrase

namespace Call

variable {book : Phrasebook} {c : Cursor} {t : Token} (source : List Char)

theorem run_extract_singleton_of_after? {rest : List Char}
    (h : book.after? t c.ahead = some rest) :
    (extract [t]).run book source c = (.token t, ⟨rest, []⟩) := by
  have hfirst : (book.first c.ahead id [t]).2 = some (t, rest) := by
    rw [Phrasebook.first, show book.after? (id t) c.ahead = some rest from h]
  exact run_extract_of_some hfirst

theorem run_extract_singleton_of_none (h : book.after? t c.ahead = none) :
    ∃ d, (extract [t]).run book source c = (.failure d, ⟨c.rest, c.tried ++ [t]⟩) := by
  have hfirst : (book.first c.ahead id [t]).2 = none := by
    rw [Phrasebook.first_eq_none (by simpa using h)]
  exact ⟨_, run_extract_of_none hfirst⟩

end Call

/-- A token is read exactly where the text goes on with the words of its phrase, and then the cursor
goes to the start of the word after them. -/
theorem extract_eq_token_iff {book : Phrasebook} {t : Token} {phrase : String}
    {ws : List (List Char)} (ht : t ≠ .endOfInput) (hphrase : book.phrase? t = some phrase)
    (hws : phrase.toList = [' '].intercalate ws) (hne : ws ≠ []) (hplain : Phrase.Plain ws)
    (source : String) (calls : List Call) :
    let c := (Call.runAll book source.toList calls (.start source.toList)).2
    let run := (Call.extract [t]).run book source.toList c
    (run.1 = .token t ↔ BeginsAs ws c.rest) ∧
      (run.1 = .token t → ∀ rest, run.2.rest = rest ↔ StartsAt ws.length c.rest rest) := by
  intro c run
  -- The phrase is looked for behind the blanks, and they make no difference to the words.
  have hahead : skipBlank c.ahead = c.ahead := skipBlank_skipBlank c.rest
  have hafter : book.after? t c.ahead = Phrase.afterWords? ws c.ahead := by
    rw [Phrasebook.after?, if_neg ht, hphrase, ← Phrase.after?_eq_afterWords? hplain hne, ← hws]
  have hbegins : (book.after? t c.ahead).isSome = true ↔ BeginsAs ws c.rest := by
    rw [hafter, Phrase.isSome_afterWords?_iff hplain hahead, BeginsAs, BeginsAs, Cursor.ahead,
      splitWords_skipBlank]
  cases ha : book.after? t c.ahead with
  | none =>
    rw [ha] at hbegins
    obtain ⟨d, hrun⟩ := Call.run_extract_singleton_of_none source.toList ha
    have hno : run.1 ≠ .token t := by
      rw [show run = _ from hrun]
      exact Answer.noConfusion
    exact ⟨iff_of_false hno fun h => Bool.false_ne_true (hbegins.mpr h), (absurd · hno)⟩
  | some next =>
    rw [ha] at hbegins
    have hnext : StartsAt ws.length c.rest next :=
      (Phrase.startsAt_of_afterWords? hplain hahead (hafter ▸ ha)).of_skipBlank
    rw [show run = _ from Call.run_extract_singleton_of_after? source.toList ha]
    refine ⟨iff_of_true rfl (hbegins.mp rfl), fun _ rest => ⟨?_, hnext.unique⟩⟩
    rintro rfl
    exact hnext

def comparisonBook : Phrasebook := ⟨[⟨"kürzer als", .lessThan⟩]⟩

/-- The sign of the kelvin lowers to a letter of the phrase, and other blanks stand for its
space. -/
theorem extract_eq_token_iff_kelvin :
    comparisonBook.phrase? .lessThan = some "kürzer als" ∧
      Phrase.Plain ["kürzer".toList, "als".toList] ∧
      BeginsAs ["kürzer".toList, "als".toList] "\u212aÜRZER\u2003\tALS\u2028x".toList ∧
      StartsAt 2 "\u212aÜRZER\u2003\tALS\u2028x".toList "x".toList := by
  have hphrase : comparisonBook.phrase? .lessThan = some "kürzer als" := by decide
  have hplain : Phrase.Plain ["kürzer".toList, "als".toList] := by
    simp [Phrase.Plain, Solid, isBlank]
  have hiff := extract_eq_token_iff (by decide) hphrase rfl (by simp) hplain
    "ab \u3000\u212aÜRZER\u2003\tALS\u2028x" [.name]
  have hname : (Call.runAll comparisonBook "ab \u3000\u212aÜRZER\u2003\tALS\u2028x".toList [.name]
      (.start "ab \u3000\u212aÜRZER\u2003\tALS\u2028x".toList)).2 =
      ⟨"\u212aÜRZER\u2003\tALS\u2028x".toList, []⟩ := by decide +kernel
  have hrun : (Call.extract [.lessThan]).run comparisonBook
      "ab \u3000\u212aÜRZER\u2003\tALS\u2028x".toList
      ⟨"\u212aÜRZER\u2003\tALS\u2028x".toList, []⟩ =
      (.token .lessThan, ⟨"x".toList, []⟩) := by decide +kernel
  simp only [hname, hrun] at hiff
  exact ⟨hphrase, hplain, hiff.1.mp trivial, (hiff.2 trivial _).mp rfl⟩

end Wordy
