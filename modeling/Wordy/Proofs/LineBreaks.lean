import Mathlib
import Wordy.Proofs.CutForms
import Wordy.Proofs.Sessions

/-! A program that is typed line by line. Its first lines make up a program too, or are incomplete,
unless the line ends at a bad place: within a phrase or a quoted text, or between a name and its
type. -/

namespace Wordy

open Text Phrasebook Reader

namespace Cut

variable {cut : Cut} {text pre : List Char} {l : Lexeme} {ls : List Lexeme}

/-- Only phrases of several words and quoted texts are torn. -/
theorem Tears.several_words (h : cut.Tears pre l)
    (hskip : skipBlank (pre ++ cut.right) = pre ++ cut.right) :
    (∃ t ∈ Token.spelled, l = .token t ∧ 1 < t.words.length) ∨
      ∃ contents, l = .quotation contents := by
  obtain ⟨rest, hn⟩ := h.whole
  have hpre : skipBlank pre = pre := by simpa using skipBlank_shift (k := []) hskip h.ne_nil
  have hend : afterWord (pre ++ []) = afterWord pre ++ [] := by
    rw [List.append_nil, List.append_nil]
  obtain ⟨hword, -⟩ := word_shift cut.break_right hend
  rw [List.append_nil] at hword
  -- A word before the cut is a whole one, so that a lexeme of one word has its part there.
  cases hn with
  | @token t _ hafter =>
    rw [hskip] at hafter
    have hspelled : t ∈ Token.spelled := by
      rw [Token.mem_spelled]
      rintro rfl
      exact h.ne_nil (List.append_eq_nil_iff.mp (after?_endOfInput.mp hafter).1).1
    refine .inl ⟨t, hspelled, rfl, ?_⟩
    by_contra hshort
    obtain ⟨w, hw⟩ : ∃ w, t.words = [w] := by
      have hpos := List.length_pos_iff.mpr (Token.words_ne_nil t)
      exact List.length_eq_one_iff.mp (by omega)
    rw [standard_after? hspelled, hw, Phrase.afterWords?, hword] at hafter
    split at hafter
    · next hlowers =>
      refine h.part (afterWord pre) (.token ?_)
      rw [hpre, standard_after? hspelled, hw, Phrase.afterWords?, if_pos hlowers,
        Phrase.afterWords?]
    · cases hafter
  | word hne hres =>
    rw [hskip, hword] at hres h
    have hne' : skipBlank pre ≠ [] := by
      rw [hpre]
      exact h.ne_nil
    have hn := Lexeme.Next.word hne' (hpre.symm ▸ hres)
    rw [hpre] at hn
    exact absurd hn (h.part _)
  | quotation _ => exact .inr ⟨_, rfl⟩

/-- The end of the text is not torn, and says nothing of a type. -/
theorem Misplaced.of_endOfInput (h : cut.Misplaced text (ls ++ [.token .endOfInput])) :
    cut.Misplaced text ls := by
  cases h with
  | @torn before after l mid pre hls hr hmid ht =>
    -- If the lexeme that is torn were the last one, it would be the end of the text.
    rcases List.eq_nil_or_concat' after with rfl | ⟨init, last, rfl⟩
    · obtain ⟨-, hl⟩ := List.append_inj' hls rfl
      have hskip : skipBlank (pre ++ cut.right) = pre ++ cut.right := by
        rw [← hmid, skipBlank_skipBlank]
      rcases ht.several_words hskip with ⟨t, hspelled, rfl, -⟩ | ⟨contents, rfl⟩
      · cases hl
        exact absurd rfl (Token.mem_spelled.mp hspelled)
      · cases hl
    · rw [← List.cons_append, ← List.append_assoc] at hls
      exact .torn (List.append_inj' hls rfl).1 hr hmid ht
  | @untyped before after t u mid hls hr hmid ht =>
    rcases List.eq_nil_or_concat' after with rfl | ⟨init, last, rfl⟩
    · have hsplit : before ++ [Lexeme.token t, .token u] =
          before ++ [.token t] ++ [.token u] := by simp
      rw [hsplit] at hls
      obtain ⟨-, hu⟩ := List.append_inj' hls rfl
      cases hu
      simp [Typing] at ht
    · rw [← List.cons_append, ← List.cons_append, ← List.append_assoc] at hls
      exact .untyped (List.append_inj' hls rfl).1 hr hmid ht

end Cut

/-- The cut is misplaced in the lexemes of the program, of which the source is made up. -/
def Cut.Misplaces (cut : Cut) (source : String) (p : Program) : Prop :=
  ∃ ls rest, p.Written ls ∧ Reads standard ls source.toList rest ∧ skipBlank rest = [] ∧
    cut.Misplaced source.toList ls

/-- The part of a program before a cut is a program, or incomplete, or the cut is misplaced. -/
theorem parse_before_cut (cut : Cut) {part source : String} {p : Program}
    (hsource : source.toList = part.toList ++ cut.right) (h : parse source = .ok p) :
    (∃ q, parse part = .ok q) ∨ (∃ d, parse part = .error d ∧ d.isIncomplete part = true) ∨
      cut.Misplaces source p := by
  have hlevel : cut.Level (.start part.toList) (.start source.toList) := by
    obtain ⟨pre, hpre, hshift⟩ :=
      exists_skipBlank_append part.toList (show skipBlank [] = [] from rfl)
    rw [List.append_nil, List.append_nil] at hpre
    change skipBlank source.toList = skipBlank (skipBlank part.toList ++ cut.right)
    rw [hpre, hsource]
    exact hshift cut.right
  obtain ⟨d', hread⟩ := exists_read_of_parseWith h
  obtain ⟨ls, ⟨ms, rfl, hw⟩, hl, ho⟩ := Program.keeps_read.outcome hlevel hread
  cases hpart : parse part with
  | ok q => exact .inl ⟨q, rfl⟩
  | error d =>
    right
    obtain ⟨e, s, hread', hplaced, rfl⟩ := placed_of_parseWith standard_hasNoEmptyPhrase hpart
    rw [hread'] at ho
    cases ho with
    | ended he =>
      have hrest : e.rest = [] := he.resolve_right hplaced.fault_ne_stalled
      exact .inl ⟨_, rfl, hplaced.isIncomplete_iff.mpr hrest⟩
    | misplaced hm =>
      obtain ⟨mid, hms, he⟩ := hl.of_append
      cases he with
      | cons hn _ =>
        have hend := (after?_endOfInput.mp (Lexeme.Next.token_iff.mp hn)).1
        exact .inr ⟨ms, mid, hw, hms, hend, hm.of_endOfInput⟩

def Cut.beforeLines (later : List String) : Cut where
  right := '\n' :: (snippet later).toList
  break_right := .cons (by decide)

/-- The first lines of a program are a program or are waited on, unless the line break after them is
misplaced. -/
theorem parse_take_or_waits_or_misplaced {lines : List String} {p : Program}
    (h : parse (snippet lines) = .ok p) {k : Nat} (hk : k < lines.length) :
    (∃ q, parse (snippet (lines.take k)) = .ok q) ∨ Session.Waits (lines.take k) ∨
      (Cut.beforeLines (lines.drop k)).Misplaces (snippet lines) p := by
  -- With no line before the break there is no line break either, but the empty text is a program.
  by_cases hfirst : lines.take k = []
  · rw [hfirst]
    exact .inl ⟨⟨[]⟩, by decide +kernel⟩
  · have hlater : lines.drop k ≠ [] := by simpa using hk
    refine parse_before_cut (Cut.beforeLines (lines.drop k)) ?_ h
    have hsnippet : snippet (lines.take k ++ lines.drop k) =
        snippet (lines.take k) ++ "\n" ++ snippet (lines.drop k) :=
      String.intercalate_append_of_ne_nil hfirst hlater
    rw [List.take_append_drop] at hsnippet
    rw [hsnippet]
    simp [Cut.beforeLines]

theorem parse_take_or_waits_or_misplaced_endOfIf :
    parse (snippet ["if x do", "end of if"]) =
        .ok ⟨[.statement (.conditional [⟨.atom (.reference "x"), []⟩] none)]⟩ ∧
      ((∃ q, parse (snippet ["if x do"]) = .ok q) ∨ Session.Waits ["if x do"] ∨
        (Cut.beforeLines ["end of if"]).Misplaces (snippet ["if x do", "end of if"])
          ⟨[.statement (.conditional [⟨.atom (.reference "x"), []⟩] none)]⟩) := by
  have h : parse (snippet ["if x do", "end of if"]) =
      .ok ⟨[.statement (.conditional [⟨.atom (.reference "x"), []⟩] none)]⟩ := by decide +kernel
  have hfirst := parse_take_or_waits_or_misplaced h (show 1 < 2 by decide)
  simp only [List.take_succ_cons, List.take_zero, List.drop_succ_cons, List.drop_zero] at hfirst
  exact ⟨h, hfirst⟩

/-- Two lines are a program, but the first one is rejected before the second one is typed. -/
def Session.RejectsFirst (first second : String) : Prop :=
  (∃ p, parse (snippet [first, second]) = .ok p) ∧
    ∃ d, parse (snippet [first]) = .error d ∧ d.isIncomplete (snippet [first]) = false

instance (first second : String) : Decidable (Session.RejectsFirst first second) :=
  match hfirst : parse (snippet [first]) with
  | .ok _ => .isFalse fun ⟨_, _, hd, _⟩ => nomatch hfirst.symm.trans hd
  | .error d =>
    match hall : parse (snippet [first, second]) with
    | .error _ => .isFalse fun ⟨⟨_, hp⟩, _⟩ => nomatch hall.symm.trans hp
    | .ok p =>
      if hi : d.isIncomplete (snippet [first]) = false then
        .isTrue ⟨⟨p, hall⟩, d, hfirst, hi⟩
      else
        .isFalse fun ⟨_, _, hd, hi'⟩ => hi (Except.error.inj (hfirst.symm.trans hd) ▸ hi')

/-- A declaration and a parameter without their types, a phrase without its last word and a quoted
text without its closing quote. -/
theorem rejected_first_line :
    Session.RejectsFirst "define variable x to be" "number" ∧
      Session.RejectsFirst "define function f with param x as" "number do end of function" ∧
      Session.RejectsFirst "print x greater" "than 1" ∧ Session.RejectsFirst "print 'a" "b'" := by
  decide +kernel

end Wordy
