import Mathlib
import Wordy.Proofs.Failures
import Wordy.Proofs.Lockstep

/-! The spacing of a text. Two texts of the same words, none of which opens a quotation, are read in
step: word by word the cursors stand before the same word of both. So they have the same program, or
fail by the same fault at the same word. -/

namespace Wordy

open Text Reader

namespace Text

/-- The text is made of the words, with blanks between them and perhaps around them. -/
inductive Spread : List (List Char) → List Char → Prop
  | nil {gap : List Char} (hgap : Blank gap) : Spread [] gap
  | cons {gap w rest : List Char} {ws : List (List Char)} (hgap : Blank gap) (hne : w ≠ [])
      (hw : Solid w) (hb : Break rest) (h : Spread ws rest) : Spread (w :: ws) (gap ++ (w ++ rest))

/-- What is left of the text from the word of that number on, the first word being that of zero. -/
def fromWord : Nat → List Char → List Char
  | 0, s => skipBlank s
  | k + 1, s => afterWord (fromWord k s)

theorem skipBlank_fromWord (k : Nat) (s : List Char) : skipBlank (fromWord k s) = fromWord k s := by
  cases k with
  | zero => exact skipBlank_skipBlank s
  | succ k => exact skipBlank_afterWord _

namespace Spread

variable {ws : List (List Char)} {s t : List Char}

theorem fromWord_succ {gap w rest : List Char} (hgap : Blank gap) (hne : w ≠ []) (hw : Solid w)
    (hb : Break rest) (k : Nat) : fromWord (k + 1) (gap ++ (w ++ rest)) = fromWord k rest := by
  induction k with
  | zero =>
    change afterWord (skipBlank (gap ++ (w ++ rest))) = skipBlank rest
    rw [hgap.skipBlank_append, hw.skipBlank_append hne, hw.afterWord_append hb]
  | succ k ih => rw [fromWord, ih, fromWord]

theorem word_fromWord (h : Spread ws s) (k : Nat) : word (fromWord k s) = ws.getD k [] := by
  induction h generalizing k with
  | @nil gap hgap =>
    have hnil : fromWord k gap = [] := by
      induction k with
      | zero => exact skipBlank_eq_nil_iff.mpr hgap
      | succ k ih => rw [fromWord, ih]; rfl
    rw [hnil]
    rfl
  | cons hgap hne hw hb _ ih =>
    cases k with
    | zero =>
      rw [fromWord, hgap.skipBlank_append, hw.skipBlank_append hne, hw.word_append hb]
      rfl
    | succ k => rw [fromWord_succ hgap hne hw hb, ih, List.getD_cons_succ]

theorem fromWord_eq_nil_iff (h : Spread ws s) (k : Nat) : fromWord k s = [] ↔ ws.length ≤ k := by
  induction h generalizing k with
  | @nil gap hgap =>
    refine iff_of_true ?_ (Nat.zero_le k)
    induction k with
    | zero => exact skipBlank_eq_nil_iff.mpr hgap
    | succ k ih => rw [fromWord, ih]; rfl
  | cons hgap hne hw hb _ ih =>
    cases k with
    | zero => simp [fromWord, hgap.skipBlank_append, hw.skipBlank_append hne, hne]
    | succ k => rw [fromWord_succ hgap hne hw hb, ih, List.length_cons, Nat.succ_le_succ_iff]

theorem quoted?_fromWord (h : Spread ws s) (hq : ∀ w ∈ ws, ∀ c ∈ w.head?, isQuote c = false)
    (k : Nat) : quoted? (fromWord k s) = none := by
  have hword := h.word_fromWord k
  cases hs : fromWord k s with
  | nil => rfl
  | cons c rest =>
    have hk : k < ws.length := by
      by_contra hk
      rw [(h.fromWord_eq_nil_iff k).mpr (Nat.le_of_not_lt hk)] at hs
      cases hs
    have hc : isBlank c = false := by
      have hhead := List.head?_dropWhile_not isBlank (fromWord k s)
      rw [show (fromWord k s).dropWhile isBlank = fromWord k s from skipBlank_fromWord k s, hs]
        at hhead
      simpa using hhead
    rw [hs, List.getD_eq_getElem _ _ hk] at hword
    have hquote := hq ws[k] (List.getElem_mem hk) c (by rw [← hword]; simp [word, hc])
    rw [quoted?, if_neg (by simp [hquote])]

theorem word_eq (hs : Spread ws s) (ht : Spread ws t) (k : Nat) :
    word (fromWord k s) = word (fromWord k t) := by
  rw [hs.word_fromWord, ht.word_fromWord]

theorem fromWord_nil_iff (hs : Spread ws s) (ht : Spread ws t) (k : Nat) :
    fromWord k s = [] ↔ fromWord k t = [] := by
  rw [hs.fromWord_eq_nil_iff, ht.fromWord_eq_nil_iff]

end Spread

end Text

/-- Both places are before the word of one number. -/
def SameWord (s t rest rest' : List Char) : Prop := ∃ k, rest = fromWord k s ∧ rest' = fromWord k t

section

variable {ws : List (List Char)} {s t : List Char}

theorem Phrase.afterWords?_fromWord (hs : Spread ws s) (ht : Spread ws t)
    (us : List (List Char)) (k : Nat) :
    Option.Rel (SameWord s t) (afterWords? us (fromWord k s)) (afterWords? us (fromWord k t)) := by
  induction us generalizing k with
  | nil => exact .some ⟨k, rfl, rfl⟩
  | cons u us ih =>
    rw [afterWords?, afterWords?, hs.word_eq ht]
    split
    · exact ih (k + 1)
    · exact .none

theorem Phrasebook.standard_after?_fromWord (hs : Spread ws s) (ht : Spread ws t) (u : Token)
    (k : Nat) : Option.Rel (SameWord s t) (standard.after? u (fromWord k s))
      (standard.after? u (fromWord k t)) := by
  by_cases hu : u = .endOfInput
  · subst hu
    rw [after?, after?, if_pos rfl, if_pos rfl]
    by_cases hnil : fromWord k s = []
    · have hnil' := (hs.fromWord_nil_iff ht k).mp hnil
      rw [if_pos hnil, if_pos hnil']
      exact .some ⟨k, hnil.symm, hnil'.symm⟩
    · rw [if_neg hnil, if_neg fun h => hnil ((hs.fromWord_nil_iff ht k).mpr h)]
      exact .none
  · rw [standard_after? (Token.mem_spelled.mpr hu), standard_after? (Token.mem_spelled.mpr hu)]
    exact Phrase.afterWords?_fromWord hs ht u.words k

def Lockstep.ofSpread (hs : Spread ws s) (ht : Spread ws t)
    (hq : ∀ w ∈ ws, ∀ c ∈ w.head?, isQuote c = false) : Lockstep .standard where
  cursors c d := SameWord s t c.ahead d.ahead ∧ c.tried = d.tried
  places := SameWord s t
  failures e e' := e.fault = e'.fault ∧ SameWord s t e.rest e'.rest
  ahead h := h.1
  missed := by
    rintro c d tokens ⟨hw, htried⟩
    exact ⟨hw, congrArg (· ++ tokens) htried⟩
  after? := by
    rintro c d u ⟨⟨k, hc, hd⟩, -⟩
    have hafter := Phrasebook.standard_after?_fromWord hs ht u k
    rw [← hc, ← hd] at hafter
    generalize Phrasebook.standard.after? u c.ahead = x at hafter ⊢
    generalize Phrasebook.standard.after? u d.ahead = y at hafter ⊢
    cases hafter with
    | none => exact .none
    | some hw =>
      obtain ⟨j, rfl, rfl⟩ := hw
      exact .some ⟨⟨j, skipBlank_fromWord j s, skipBlank_fromWord j t⟩, rfl⟩
  ahead_eq_nil := by
    rintro c d ⟨⟨k, hc, hd⟩, -⟩
    rw [hc, hd, hs.fromWord_nil_iff ht]
  word := by
    rintro c d ⟨⟨k, hc, hd⟩, -⟩
    rw [hc, hd, hs.word_eq ht]
  afterWord := by
    rintro c d ⟨⟨k, hc, hd⟩, -⟩
    rw [hc, hd]
    exact ⟨⟨k + 1, skipBlank_fromWord (k + 1) s, skipBlank_fromWord (k + 1) t⟩, rfl⟩
  quotation := by
    rintro c d ⟨⟨k, hc, hd⟩, -⟩
    rw [hc, hd, hs.quoted?_fromWord hq, ht.quoted?_fromWord hq]
    exact .none
  fail fault hw := ⟨rfl, hw⟩
  unexpected := by
    rintro c d ⟨hw, htried⟩
    exact ⟨by rw [htried], hw⟩

end

/-- Where the word of that number starts, or the source ends if it has no such word. -/
def wordPlace (source : String) (k : Nat) : Position :=
  placeOf source.toList (fromWord k source.toList)

theorem SameWord.exists_le {ws : List (List Char)} {s t rest rest' : List Char}
    (h : SameWord s t rest rest') (hs : Spread ws s) (ht : Spread ws t) :
    ∃ k ≤ ws.length, rest = fromWord k s ∧ rest' = fromWord k t := by
  obtain ⟨k, rfl, rfl⟩ := h
  rcases Nat.le_total k ws.length with hk | hk
  · exact ⟨k, hk, rfl, rfl⟩
  · refine ⟨ws.length, Nat.le_refl _, ?_, ?_⟩
    · rw [(hs.fromWord_eq_nil_iff k).mpr hk, (hs.fromWord_eq_nil_iff _).mpr (Nat.le_refl _)]
    · rw [(ht.fromWord_eq_nil_iff k).mpr hk, (ht.fromWord_eq_nil_iff _).mpr (Nat.le_refl _)]

/-- Two spacings of the same words, none of which opens a quotation, have the same program or the
same fault at the same word. -/
theorem parse_spread {ws : List (List Char)} {s t : String} (hs : Spread ws s.toList)
    (ht : Spread ws t.toList) (hq : ∀ w ∈ ws, ∀ c ∈ w.head?, isQuote c = false) :
    (∃ p, parse s = .ok p ∧ parse t = .ok p) ∨
      ∃ fault, ∃ k ≤ ws.length, parse s = .error ⟨fault, wordPlace s k⟩ ∧
        parse t = .error ⟨fault, wordPlace t k⟩ := by
  have hstalled {source : String} {e : Failure} {c : Cursor}
      (h : Program.read .standard (.start source.toList) = .error e c) : e.fault ≠ .stalled := by
    have hp := Program.places_read Phrasebook.standard_hasNoEmptyPhrase
      (c := .start source.toList) (List.suffix_refl _) (Nat.lt_succ_self _)
    rw [h] at hp
    exact Failure.Placed.fault_ne_stalled hp
  have hstart : (Lockstep.ofSpread hs ht hq).cursors (.start s.toList) (.start t.toList) :=
    ⟨⟨0, rfl, rfl⟩, rfl⟩
  -- The limits are no reason to part: neither run uses its own up.
  have htogether := Program.agrees_read hstart
  generalize hx : Program.read .standard (.start s.toList) = x at htogether
  generalize hy : Program.read .standard (.start t.toList) = y at htogether
  cases htogether with
  | ok _ => exact .inl ⟨_, parseWith_of_ok hx, parseWith_of_ok hy⟩
  | @error e e' c d he _ =>
    obtain ⟨hfault, hword⟩ := he
    obtain ⟨k, hk, hrest, hrest'⟩ := hword.exists_le hs ht
    refine .inr ⟨e.fault, k, hk, ?_, ?_⟩
    · rw [parse, parseWith_of_error hx, Failure.locate, wordPlace, hrest]
    · rw [parse, parseWith_of_error hy, Failure.locate, wordPlace, hrest', hfault]
  | stalledLeft h => exact absurd h (hstalled hx)
  | stalledRight h => exact absurd h (hstalled hy)

/-- A `print` without an expression, spaced in two ways. -/
theorem parse_spread_print :
    (Spread ["print".toList, "do".toList] "print do".toList ∧
      Spread ["print".toList, "do".toList] "\n\tprint\n do ".toList ∧
      ∀ w ∈ ["print".toList, "do".toList], ∀ c ∈ w.head?, isQuote c = false) ∧
    ((∃ p, parse "print do" = .ok p ∧ parse "\n\tprint\n do " = .ok p) ∨
      ∃ fault, ∃ k ≤ 2, parse "print do" = .error ⟨fault, wordPlace "print do" k⟩ ∧
        parse "\n\tprint\n do " = .error ⟨fault, wordPlace "\n\tprint\n do " k⟩) := by
  have hprint : Solid "print".toList ∧ Solid "do".toList := by simp [Solid, isBlank]
  have hone : Spread ["print".toList, "do".toList] "print do".toList :=
    @Spread.cons [] "print".toList " do".toList _ (by simp [Blank]) (by simp) hprint.1
      (by simp [Break, isBlank])
      (@Spread.cons " ".toList "do".toList [] _ (by simp [Blank, isBlank]) (by simp) hprint.2 .nil
        (.nil (by simp [Blank])))
  have htwo : Spread ["print".toList, "do".toList] "\n\tprint\n do ".toList :=
    @Spread.cons "\n\t".toList "print".toList "\n do ".toList _ (by simp [Blank, isBlank])
      (by simp) hprint.1 (by simp [Break, isBlank])
      (@Spread.cons "\n ".toList "do".toList " ".toList _ (by simp [Blank, isBlank]) (by simp)
        hprint.2 (by simp [Break, isBlank]) (.nil (by simp [Blank, isBlank])))
  have hplain : ∀ w ∈ ["print".toList, "do".toList], ∀ c ∈ w.head?, isQuote c = false := by
    simp [isQuote]
  exact ⟨⟨hone, htwo, hplain⟩, parse_spread hone htwo hplain⟩

end Wordy
