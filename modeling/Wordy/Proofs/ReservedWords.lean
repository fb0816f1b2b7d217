import Mathlib
import Wordy.Proofs.Calls
import Wordy.Proofs.StandardPhrases
import Wordy.Proofs.WordPrefixes

/-! Reserved words. A phrase is looked for letter by letter, while a word is lowered as a whole
before it is looked up. The two ways differ in a capital sigma at the end of a word and in the
dotted capital I, neither of which lowers to ASCII. So where all phrases are written in ASCII, the
reserved words are those at which a phrase of one word is found. -/

namespace Wordy

open Text Phrase

namespace Text

/-- A character of ASCII that is neither a blank nor a capital. -/
def isLowerAscii (c : Char) : Bool := c.toNat < 128 && !isBlank c && !c.isUpper

theorem toNat_lt_of_isLowerAscii {c : Char} (h : isLowerAscii c = true) : c.toNat < 128 := by
  simp only [isLowerAscii, Bool.and_eq_true, decide_eq_true_eq] at h
  exact h.1.1

theorem isBlank_of_isLowerAscii {c : Char} (h : isLowerAscii c = true) : isBlank c = false := by
  simp only [isLowerAscii, Bool.and_eq_true, Bool.not_eq_true'] at h
  exact h.1.2

/-- Where the lowered text is ASCII, it was lowered letter by letter. -/
theorem lowers_of_lowercaseAfter {before v w : List Char} (h : lowercaseAfter before v = w)
    (hw : ∀ c ∈ w, c.toNat < 128) : Lowers v w := by
  induction v generalizing before w with
  | nil =>
    rw [lowercaseAfter] at h
    rw [← h]
    rfl
  | cons c v ih =>
    rw [lowercaseAfter] at h
    -- Only the sigma looks at what stands around it, and neither of its lower cases is ASCII.
    by_cases hsigma : c = 'Σ'
    · rw [if_pos hsigma] at h
      have hfirst := hw (if casedNext before && !casedNext v then 'ς' else 'σ') (by simp [← h])
      split_ifs at hfirst <;> exact absurd hfirst (by decide)
    · rw [if_neg hsigma] at h
      by_cases hdotted : c = 'İ'
      · -- The capital with a dot leaves a combining dot behind.
        have hdot := hw '\u0307' (by simp [← h, lower, hdotted])
        exact absurd hdot (by decide)
      · rw [lower, if_neg hdotted, List.singleton_append] at h
        subst h
        have hv := ih rfl fun d hd => hw d (List.mem_cons_of_mem _ hd)
        rw [Lowers, List.map_cons, List.map_cons, lower, if_neg hdotted, hv]

theorem lowercase_eq_iff {v w : List Char} (hw : ∀ c ∈ w, c.toNat < 128) :
    lowercase v = w ↔ Lowers v w := by
  refine ⟨fun h => lowers_of_lowercaseAfter h hw, fun h => lowercase_of_lowers h fun hm => ?_⟩
  exact absurd (hw 'σ' hm) (by decide)

theorem eq_space_of_lower {c : Char} (h : lower c = [' ']) : c = ' ' := by
  by_cases hc : c.toNat < 128
  · rw [lower_of_ascii hc, List.singleton_inj, toLower_eq_iff (by decide)] at h
    exact h.elim id id
  · unfold lower at h
    split_ifs at h with hdotted
    · cases h
    · rw [List.singleton_inj] at h
      have hbeyond := lowerChar_beyond_ascii (Nat.le_of_not_lt hc) (by rw [h]; decide)
      rw [h] at hbeyond
      exact hbeyond.elim (absurd · (by decide)) (absurd · (by decide))

theorem Lowers.space_not_mem {v w : List Char} (h : Lowers v w) (hv : Solid v) : ' ' ∉ w := by
  intro hm
  have hspace : [' '] ∈ v.map lower := by
    rw [h]
    exact List.mem_map_of_mem hm
  obtain ⟨c, hc, hlower⟩ := List.mem_map.mp hspace
  have hblank := hv c hc
  rw [eq_space_of_lower hlower] at hblank
  exact absurd hblank (by decide)

end Text

namespace Phrase

variable {phrase : List Char}

theorem exists_mem_words {c : Char} (hc : c ∈ phrase) (hne : c ≠ ' ') :
    ∃ w ∈ words phrase, c ∈ w := by
  have hflatten : c ∈ (words phrase).flatten := by
    rw [words, List.splitOn, flatten_splitOnP]
    simpa [hne] using hc
  exact List.mem_flatten.mp hflatten

theorem words_of_length_eq_one (h : (words phrase).length = 1) : words phrase = [phrase] := by
  obtain ⟨w, hw⟩ := List.length_eq_one_iff.mp h
  have hjoin : [' '].intercalate (words phrase) = phrase := List.intercalate_splitOn ' '
  rw [hw] at hjoin ⊢
  rw [← hjoin, List.intercalate_singleton]

theorem length_words_of_space_not_mem (h : ' ' ∉ phrase) : (words phrase).length = 1 := by
  have hall : ∀ c ∈ phrase, (c == ' ') = false := by
    intro c hc
    refine beq_eq_false_iff_ne.mpr ?_
    rintro rfl
    exact h hc
  rw [words, List.splitOn, List.splitOnP_eq_singleton hall, List.length_singleton]

end Phrase

namespace Phrasebook

/-- Each token has one phrase, whose words are written in ASCII without capitals. -/
structure IsAscii (book : Phrasebook) : Prop where
  nodup : (book.spellings.map (·.token)).Nodup
  token_ne : ∀ s ∈ book.spellings, s.token ≠ .endOfInput
  words : ∀ s ∈ book.spellings, ∀ w ∈ Phrase.words s.phrase.toList, w ≠ [] ∧
    w.all isLowerAscii = true

theorem standard_isAscii : Phrasebook.standard.IsAscii where
  nodup := by decide
  token_ne := by decide
  words := by decide +kernel

variable {book : Phrasebook} {t : Token} {phrase : String}

theorem mem_of_phrase? (h : book.phrase? t = some phrase) : ⟨phrase, t⟩ ∈ book.spellings := by
  obtain ⟨s, hfind, rfl⟩ := Option.map_eq_some_iff.mp h
  obtain rfl : s.token = t := by simpa using List.find?_some hfind
  exact List.mem_reverse.mp (List.mem_of_find?_eq_some hfind)

namespace IsAscii

variable (hbook : book.IsAscii)

include hbook

theorem phrase?_eq_some_iff : book.phrase? t = some phrase ↔ ⟨phrase, t⟩ ∈ book.spellings := by
  refine ⟨mem_of_phrase?, fun h => ?_⟩
  obtain ⟨p, hp⟩ : ∃ p, book.phrase? t = some p := by
    rw [← Option.isSome_iff_exists, Phrasebook.phrase?, Option.isSome_map, List.find?_isSome]
    exact ⟨_, List.mem_reverse.mpr h, beq_self_eq_true t⟩
  have hsame := List.inj_on_of_nodup_map hbook.nodup (mem_of_phrase? hp) h rfl
  rw [hp, (Spelling.mk.inj hsame).1]

theorem ascii_of_mem (h : ⟨phrase, t⟩ ∈ book.spellings) : ∀ c ∈ phrase.toList, c.toNat < 128 := by
  intro c hc
  by_cases hspace : c = ' '
  · rw [hspace]
    decide
  · obtain ⟨w, hw, hcw⟩ := exists_mem_words hc hspace
    exact toNat_lt_of_isLowerAscii (List.all_eq_true.mp (hbook.words _ h w hw).2 c hcw)

theorem after?_eq (h : book.phrase? t = some phrase)
    (hone : (Phrase.words phrase.toList).length = 1) (text : List Char) :
    book.after? t text =
      if Lowers (word text) phrase.toList then some (afterWord text) else none := by
  have hmem := mem_of_phrase? h
  have hword : phrase.toList ∈ Phrase.words phrase.toList := by
    rw [words_of_length_eq_one hone]
    exact List.mem_singleton_self _
  have hsolid : Solid phrase.toList := fun c hc =>
    isBlank_of_isLowerAscii (List.all_eq_true.mp (hbook.words _ hmem _ hword).2 c hc)
  rw [after?, if_neg (hbook.token_ne _ hmem), h]
  exact after?_word hsolid text

theorem isReserved_iff (text : List Char) :
    book.isReserved (word text) = true ↔
      ∃ t phrase, book.phrase? t = some phrase ∧ (Phrase.words phrase.toList).length = 1 ∧
        (book.after? t text).isSome = true := by
  rw [isReserved, List.any_eq_true]
  constructor
  · rintro ⟨⟨phrase, t⟩, hmem, hlower⟩
    have hlowers : Lowers (word text) phrase.toList :=
      (lowercase_eq_iff (hbook.ascii_of_mem hmem)).mp (beq_iff_eq.mp hlower).symm
    have hphrase := hbook.phrase?_eq_some_iff.mpr hmem
    have hone := length_words_of_space_not_mem (hlowers.space_not_mem (solid_word text))
    refine ⟨t, phrase, hphrase, hone, ?_⟩
    rw [hbook.after?_eq hphrase hone, if_pos hlowers]
    rfl
  · rintro ⟨t, phrase, hphrase, hone, hsome⟩
    have hmem := mem_of_phrase? hphrase
    rw [hbook.after?_eq hphrase hone] at hsome
    split_ifs at hsome with hlowers
    · exact ⟨_, hmem, beq_iff_eq.mpr
        ((lowercase_eq_iff (hbook.ascii_of_mem hmem)).mpr hlowers).symm⟩
    · cases hsome

end IsAscii

end Phrasebook

namespace Call

variable {book : Phrasebook} {source : List Char} {c : Cursor} {t : Token}

theorem run_peek_singleton_iff :
    ((peek [t]).run book source c).1 = .token t ↔ (book.after? t c.ahead).isSome = true := by
  rw [run_peek, Phrasebook.first, id]
  cases book.after? t c.ahead <;> simp [Phrasebook.first, Answer.ofToken]

end Call

/-- A name is refused as a reserved word. -/
def Answer.IsReserved (answer : Answer) : Prop := ∃ d w, answer = .failure d ∧ d.fault = .reserved w

/-- A token is found ahead whose phrase is a single word. -/
def Phrasebook.FindsWord (book : Phrasebook) (source : List Char) (c : Cursor) : Prop :=
  ∃ t phrase, book.phrase? t = some phrase ∧ (Phrase.words phrase.toList).length = 1 ∧
    ((Call.peek [t]).run book source c).1 = .token t

theorem Phrasebook.IsAscii.isReserved_iff_findsWord {book : Phrasebook} (hbook : book.IsAscii)
    (source : List Char) (c : Cursor) :
    book.isReserved (word c.ahead) = true ↔ book.FindsWord source c := by
  simp only [FindsWord, hbook.isReserved_iff, Call.run_peek_singleton_iff]

/-- Where words are left, a name is refused as reserved exactly if a token of one word is found
ahead. Otherwise the name is all that comes before the next blank. -/
theorem name_isReserved_iff {book : Phrasebook} (hbook : book.IsAscii) (source : String)
    (calls : List Call) :
    let c := (Call.runAll book source.toList calls (.start source.toList)).2
    let answer := (Call.name.run book source.toList c).1
    c.ahead ≠ [] →
      (answer.IsReserved ↔ book.FindsWord source.toList c) ∧
      (¬ book.FindsWord source.toList c → ∃ w rest, c.ahead = w ++ rest ∧ w ≠ [] ∧ Solid w ∧
        Break rest ∧ answer = .text (.ofList w)) := by
  intro c answer hne
  have hiff := hbook.isReserved_iff_findsWord source.toList c
  cases hr : book.isReserved (word c.ahead) with
  | true =>
    have hfinds := hiff.mp hr
    have hanswer : answer.IsReserved :=
      ⟨_, _, congrArg Prod.fst (Call.run_name_of_isReserved hne hr), rfl⟩
    exact ⟨iff_of_true hanswer hfinds, fun h => absurd hfinds h⟩
  | false =>
    have hanswer : answer = .text (.ofList (word c.ahead)) :=
      congrArg Prod.fst (Call.run_name hne hr)
    have hfinds : ¬ book.FindsWord source.toList c := fun h => by
      rw [hiff.mpr h] at hr
      cases hr
    refine ⟨iff_of_false ?_ hfinds, fun _ => ⟨word c.ahead, c.ahead.dropWhile (!isBlank ·),
      (word_append_dropWhile c.ahead).symm, word_skipBlank_ne_nil hne, solid_word c.ahead,
      break_dropWhile c.ahead, hanswer⟩⟩
    rintro ⟨d, w, hfailure, -⟩
    cases hanswer.symm.trans hfailure

/-- A capital I with a dot is no letter of the reserved word. -/
theorem name_isReserved_iff_dotted :
    Phrasebook.standard.IsAscii ∧
      Call.runAll .standard "PRİNT \u2003Print x".toList [.name]
        (.start "PRİNT \u2003Print x".toList) = ([.text "PRİNT"], ⟨"Print x".toList, []⟩) ∧
      Cursor.ahead ⟨"Print x".toList, []⟩ ≠ [] ∧
      (Answer.failure ⟨.reserved "Print", ⟨1, 10, 10⟩⟩).IsReserved ∧
      Phrasebook.standard.FindsWord "PRİNT \u2003Print x".toList ⟨"Print x".toList, []⟩ := by
  have hrun : Call.runAll .standard "PRİNT \u2003Print x".toList [.name]
      (.start "PRİNT \u2003Print x".toList) = ([.text "PRİNT"], ⟨"Print x".toList, []⟩) := by
    decide +kernel
  have hname : (Call.name.run .standard "PRİNT \u2003Print x".toList ⟨"Print x".toList, []⟩).1 =
      .failure ⟨.reserved "Print", ⟨1, 10, 10⟩⟩ := by decide +kernel
  have hne : Cursor.ahead ⟨"Print x".toList, []⟩ ≠ [] := by decide +kernel
  have hiff := name_isReserved_iff Phrasebook.standard_isAscii "PRİNT \u2003Print x" [.name]
  simp only [hrun, hname] at hiff
  have hreserved : (Answer.failure ⟨.reserved "Print", ⟨1, 10, 10⟩⟩).IsReserved :=
    ⟨_, _, rfl, rfl⟩
  exact ⟨Phrasebook.standard_isAscii, hrun, hne, hreserved, (hiff hne).1.mp hreserved⟩

end Wordy
