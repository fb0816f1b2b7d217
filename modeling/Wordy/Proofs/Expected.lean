import Mathlib
import Wordy.Program.Equality
import Wordy.Proofs.ForkedForms
import Wordy.Proofs.RoundTrip

/-! A report on what was expected lists just what could stand there. The phrases it lists lead to a
program, because the reader offers them; the others do not, because with one of them the text parts
from the source at a point where the reader looked for other phrases only. -/

namespace Wordy

open Text Phrasebook

namespace Text

theorem byteLength_toList (s : String) : byteLength s.toList = s.utf8ByteSize := by
  rw [← String.ofList_toList (s := s)]
  generalize s.toList = cs
  induction cs with
  | nil => simp
  | cons c cs ih =>
    simp only [String.toList_ofList] at ih ⊢
    rw [byteLength_cons, ih, String.ofList_cons, String.utf8ByteSize_append,
      String.utf8ByteSize_singleton]

theorem exists_skipBlank_append (before : List Char) {r : List Char} (hr : skipBlank r = r) :
    ∃ pre, skipBlank (before ++ r) = pre ++ r ∧
      ∀ k, skipBlank (before ++ k) = skipBlank (pre ++ k) := by
  induction before with
  | nil => exact ⟨[], hr, fun _ => rfl⟩
  | cons c before ih =>
    by_cases hc : isBlank c = true
    · obtain ⟨pre, hpre, hk⟩ := ih
      refine ⟨pre, ?_, fun k => ?_⟩
      · rwa [List.cons_append, skipBlank, List.dropWhile_cons_of_pos hc]
      · rw [List.cons_append, ← hk, skipBlank, List.dropWhile_cons_of_pos hc, skipBlank]
    · refine ⟨c :: before, ?_, fun _ => rfl⟩
      rw [List.cons_append, skipBlank, List.dropWhile_cons_of_neg hc]

end Text

theorem ofList_spaced (before form more : String) :
    String.ofList (before.toList ++ ([' '] ++ (form.toList ++ ([' '] ++ more.toList)))) =
      before ++ " " ++ form ++ " " ++ more := by
  rw [← String.toList_inj, String.toList_ofList]
  simp

theorem blank_space : Blank [' '] := by simp [Blank, isBlank]

theorem break_space (text : List Char) : Break ([' '] ++ text) := .cons (by decide)

theorem Filler.fit {ls : List Lexeme} (h : Filler ls) : ∀ l ∈ ls, l.Fit .standard := by
  intro l hl
  have hfiller := h l hl
  cases l with
  | token t => trivial
  | word w =>
    obtain rfl : w = "x" := by simpa [Lexeme.isFiller] using hfiller
    exact ⟨by decide, by simp [Solid, isBlank], by decide⟩
  | quotation contents => simp [Lexeme.isFiller] at hfiller

theorem Filler.spelledBy {t : Token} {ls : List Lexeme} (h : Filler ls) (ht : t ≠ .endOfInput)
    (hls : .token .endOfInput ∉ ls) :
    Lexeme.SpelledBy (.token t :: ls)
      ([' '] ++ (t.phrase.toList ++ ([' '] ++ (Lexeme.spaced ls).toList))) := by
  have hs := Lexeme.spelledBy_spaced h.fit hls (show Break [] by simp [Break])
    (.nil (show Blank [] by simp [Blank]))
  rw [List.append_nil, List.append_nil] at hs
  have hne : .token .endOfInput ≠ Lexeme.token t := by simpa using ht.symm
  exact (Lexeme.spelledBy_text (l := .token t) trivial hne (break_space _)
    (hs.append_left blank_space)).append_left blank_space

theorem Token.phrase_eq_endOfInput {t : Token} (h : t.phrase = "(EOF)") : t = .endOfInput := by
  revert h
  cases t <;> decide

theorem Token.after?_spaced {t : Token} (ht : t ∈ spelled) (more : List Char) :
    standard.after? t (skipBlank ([' '] ++ (t.phrase.toList ++ ([' '] ++ more)))) =
      some (skipBlank ([' '] ++ more)) := by
  have hp := Phrase.spelledBy_intercalate (words_ne_nil t)
  rw [intercalate_words] at hp
  rw [blank_space.skipBlank_append, hp.skipBlank_append (plain_words ht) (lettered_words ht),
    standard_after? ht]
  exact hp.afterWords? (plain_words ht) (lettered_words ht) (break_space more)

theorem Reads.exchange {before rest mid k : List Char} {ls ms : List Lexeme}
    (hr : Reads standard ls (before ++ rest) mid) (hmid : skipBlank mid = rest)
    (he : .token .endOfInput ∉ ls) (hk : Break k) (hs : Lexeme.SpelledBy ms k) :
    ∃ last, Reads standard (ls ++ ms) (before ++ k) last ∧ skipBlank last = [] := by
  obtain ⟨pre, hpre, hshift⟩ := exists_skipBlank_append before
    (show skipBlank rest = rest by rw [← hmid, skipBlank_skipBlank])
  obtain ⟨rest', hr', hrest'⟩ := hr.shift he hk hpre (hshift k) hmid
  obtain ⟨last, hm, hlast⟩ := hs.reads
  obtain ⟨last', hm', hlast'⟩ := hm.of_skipBlank_eq hlast hrest'.symm
  exact ⟨last', hr'.append hm', hlast'⟩

theorem Reads.parse_exchange {before rest mid k : List Char} {ls ms : List Lexeme} {p : Program}
    (hr : Reads standard ls (before ++ rest) mid) (hmid : skipBlank mid = rest) (hk : Break k)
    (hs : Lexeme.SpelledBy ms k) (hw : p.Written (ls ++ ms)) :
    parse (.ofList (before ++ k)) = .ok p := by
  have he : .token .endOfInput ∉ ls := fun hm =>
    Item.WrittenAll.endOfInput_not_mem hw (List.mem_append_left ms hm)
  obtain ⟨last, hr', hlast⟩ := hr.exchange hmid he hk hs
  rw [← String.toList_ofList (l := before ++ k)] at hr'
  exact parse_of_written hw hr' hlast

/-- A report of the parser lists what is on offer after the lexemes that were read. -/
theorem Program.read_unexpected {text rest : List Char} {expected : List String} {s : Cursor}
    (h : Program.read standard (.start text) = .error ⟨.unexpected expected, rest⟩ s) :
    ∃ ls mid, Reads standard ls text mid ∧ skipBlank mid = rest ∧
      ∀ form ∈ expected, ∃ u : Token, u.phrase = form ∧ Offer Program.WrittenToEnd ls u := by
  rcases Reader.bind_eq_error.mp h with h | ⟨_, _, hc, h⟩
  · cases h
  cases hc
  rcases Reader.bind_eq_error.mp h with h | ⟨_, _, -, h⟩
  · obtain ⟨ls, mid, hr, hrest, hoffer⟩ := (Program.offers_readItems _).unexpected h
    refine ⟨ls, mid, hr, hrest.symm, fun form hform => ?_⟩
    obtain ⟨u, rfl, hu⟩ := hoffer form hform
    rcases hu with ⟨-, hu⟩ | hu
    · cases hu
    · exact ⟨u, (standard_form u).symm, hu⟩
  · cases h

/-- The parser stops between the texts, with the report. -/
def Rejects (before rest : List Char) (expected : List String) : Prop :=
  ∃ s, Program.read standard (.start (before ++ rest)) = .error ⟨.unexpected expected, rest⟩ s

theorem exists_rejects {source : String} {d : Diagnostic} {expected : List String}
    (h : parse source = .error d) (hf : d.fault = .unexpected expected) :
    ∃ before rest : String, source = before ++ rest ∧ before.utf8ByteSize = d.position.offset ∧
      Rejects before.toList rest.toList expected := by
  rw [parse, parseWith] at h
  cases hread : (Program.read standard).run (.start source.toList) with
  | ok p c =>
    rw [hread] at h
    cases h
  | error e s =>
    rw [hread] at h
    obtain rfl := Except.error.inj h
    obtain ⟨fault, rest⟩ := e
    obtain rfl : fault = .unexpected expected := hf
    obtain ⟨ls, mid, hr, rfl, -⟩ := Program.read_unexpected hread
    obtain ⟨before, hbefore⟩ := (skipBlank_suffix mid).trans hr.suffix
    refine ⟨.ofList before, .ofList (skipBlank mid), ?_, ?_, s, ?_⟩
    · rw [← String.ofList_append, hbefore, String.ofList_toList]
    · rw [← byteLength_toList, String.toList_ofList]
      change _ = byteLength source.toList - byteLength (skipBlank mid)
      rw [← hbefore, byteLength_append, Nat.add_sub_cancel]
    · rw [String.toList_ofList, String.toList_ofList, hbefore]
      exact hread

namespace Rejects

variable {before rest : List Char} {expected : List String}

theorem parse_ne_ok (h : Rejects before rest expected) {k : List Char} (hk : Break k)
    (hmissed : ∀ t : Token, t.phrase ∈ expected → standard.after? t (skipBlank k) = none)
    (p : Program) : parse (.ofList (before ++ k)) ≠ .ok p := by
  obtain ⟨s, hread⟩ := h
  obtain ⟨ls, mid, -, hmid, -⟩ := Program.read_unexpected hread
  obtain ⟨pre, hpre, hshift⟩ := exists_skipBlank_append before
    (show skipBlank rest = rest by rw [← hmid, skipBlank_skipBlank])
  -- The two texts part where the report is, and on that place the report tells of both.
  let fork : Fork := ⟨rest, k, hk⟩
  have hparted : fork.Parted (.start (before ++ rest)) (.start (before ++ k)) :=
    ⟨pre, hpre, hshift k⟩
  have htelling : fork.Telling ⟨.unexpected expected, rest⟩ :=
    ⟨expected, rfl, fun t ht => hmissed t (standard_form t ▸ ht)⟩
  obtain ⟨e, s', hfails⟩ := Program.reports_read.fails (List.nil_subset _) hparted hread htelling
  intro hok
  rw [parse, parseWith, String.toList_ofList] at hok
  have hrun : (Program.read standard).run (.start (before ++ k)) = .error e s' := hfails
  rw [hrun] at hok
  cases hok

end Rejects

theorem Program.WrittenToEnd.exists_more {items : List Item} {ls es more : List Lexeme}
    (hne : es ≠ []) (he : .token .endOfInput ∉ es)
    (h : WrittenToEnd items (ls ++ (es ++ more))) :
    ∃ more', more = more' ++ [.token .endOfInput] ∧
      Program.Written ⟨items⟩ (ls ++ (es ++ more')) := by
  obtain ⟨ms, heq, hw⟩ := h
  rcases List.eq_nil_or_concat' more with rfl | ⟨more', l, rfl⟩
  · obtain ⟨init, l, rfl⟩ := (List.eq_nil_or_concat' es).resolve_left hne
    rw [List.append_nil, ← List.append_assoc] at heq
    have hl := (List.append_inj' heq rfl).2
    simp only [List.cons.injEq, and_true] at hl
    simp [hl] at he
  · rw [← List.append_assoc, ← List.append_assoc] at heq
    obtain ⟨rfl, hl⟩ := List.append_inj' heq rfl
    refine ⟨more', by rw [hl], ?_⟩
    rw [← List.append_assoc]
    exact hw

theorem Expression.Written.ne_nil {e : Expression} {ls : List Lexeme} (h : e.Written ls) :
    ls ≠ [] := by
  cases h <;> simp

/-- With the phrase and something more the text makes a program. -/
def GoesOn (before form : String) : Prop :=
  ∃ more p, parse (before ++ " " ++ form ++ " " ++ more) = .ok p

/-- The text is the start of a program, and ends with an expression that has no room for one
operator more. -/
def EndsFull (before : String) : Prop :=
  ∃ ls es more e p, Lexeme.SpelledBy (ls ++ es) before.toList ∧
    Expression.Written e es ∧ e.operators = maxOperators ∧
    Program.Written p (ls ++ (es ++ more))

/-- The words of the one phrase are the first ones of the other. -/
def BeginsWith (form first : String) : Prop :=
  Phrase.words first.toList <+: Phrase.words form.toList

/-- The forms are the ways in which the text goes on. -/
structure Continuations (before : String) (expected : List String) : Prop where
  goesOn : ∀ form ∈ expected, form ≠ "(EOF)" → GoesOn before form ∨
    (∃ operator : BinaryOperator, form = operator.token.phrase) ∧ EndsFull before
  ends : "(EOF)" ∈ expected ↔ ∃ p, parse before = .ok p
  complete : ∀ t ∈ Token.spelled, (∀ form ∈ expected, ¬ BeginsWith form t.phrase ∧
    ¬ BeginsWith t.phrase form) → ¬ GoesOn before t.phrase

namespace Rejects

variable {before rest : String} {expected : List String}

theorem goesOn (h : Rejects before.toList rest.toList expected) {form : String}
    (hform : form ∈ expected) (hne : form ≠ "(EOF)") : GoesOn before form ∨
      (∃ operator : BinaryOperator, form = operator.token.phrase) ∧ EndsFull before := by
  obtain ⟨s, hread⟩ := h
  obtain ⟨ls, mid, hr, hmid, hoffer⟩ := Program.read_unexpected hread
  obtain ⟨u, rfl, hu⟩ := hoffer form hform
  have hend : u ≠ .endOfInput := by
    rintro rfl
    exact hne rfl
  rcases hu with ⟨items, more, hmore, hw⟩ | ⟨⟨items, more, hmore, hw⟩, first, es, e, operator, rfl,
    he, hmax, rfl⟩
  · -- Filler behind the token completes a program.
    left
    have hsingle : .token .endOfInput ∉ [Lexeme.token u] := by simpa using hend.symm
    obtain ⟨more', rfl, hp⟩ := Program.WrittenToEnd.exists_more (by simp) hsingle hw
    have hnot : .token .endOfInput ∉ more' := fun hm =>
      Item.WrittenAll.endOfInput_not_mem hp (by simp [hm])
    have hs := (filler_append.mp hmore).1.spelledBy hend hnot
    have hparse := hr.parse_exchange hmid (break_space _) hs hp
    rw [ofList_spaced] at hparse
    exact ⟨_, _, hparse⟩
  · -- The token is an operator behind an expression that is full.
    right
    rw [List.append_assoc] at hw
    obtain ⟨more', rfl, hp⟩ := hw.exists_more he.ne_nil he.endOfInput_not_mem
    have hnot : .token .endOfInput ∉ first ++ es := by
      intro hm
      refine Item.WrittenAll.endOfInput_not_mem hp ?_
      rw [← List.append_assoc]
      exact List.mem_append_left more' hm
    refine ⟨⟨operator, rfl⟩, first, es, more', e, ⟨items⟩, ?_, he, hmax, hp⟩
    obtain ⟨last, hr', hlast⟩ := hr.exchange hmid hnot (show Break [] by simp [Break])
      (.nil (show Blank [] by simp [Blank]))
    rw [List.append_nil, List.append_nil] at hr'
    refine Lexeme.spelledBy_of_reads hr' (fun t ht => Token.mem_spelled.mpr ?_) hlast
    rintro rfl
    exact hnot ht

theorem ends (h : Rejects before.toList rest.toList expected) :
    "(EOF)" ∈ expected ↔ ∃ p, parse before = .ok p := by
  constructor
  · intro hform
    obtain ⟨s, hread⟩ := h
    obtain ⟨ls, mid, hr, hmid, hoffer⟩ := Program.read_unexpected hread
    obtain ⟨u, hu, hoffer⟩ := hoffer _ hform
    obtain rfl := Token.phrase_eq_endOfInput hu
    rcases hoffer with ⟨items, more, -, ms, heq, hw⟩ | ⟨-, -, -, -, operator, -, -, -, ho⟩
    · -- The end of the text comes last in what is on offer, and so right after what was read.
      have hls : ls = ms := by
        rcases List.eq_nil_or_concat' more with rfl | ⟨more, l, rfl⟩
        · exact (List.append_inj' heq rfl).1
        · rw [← List.cons_append, ← List.append_assoc] at heq
          obtain ⟨rfl, -⟩ := List.append_inj' heq rfl
          exact absurd (by simp) (Item.WrittenAll.endOfInput_not_mem hw)
      subst hls
      have hnone : Lexeme.SpelledBy [] [] := .nil (by simp [Blank])
      have hp : Program.Written ⟨items⟩ (ls ++ []) := by rwa [List.append_nil]
      have hparse := hr.parse_exchange hmid (by simp [Break]) hnone hp
      rw [List.append_nil, String.ofList_toList] at hparse
      exact ⟨_, hparse⟩
    · cases operator <;> cases ho
  · rintro ⟨p, hp⟩
    by_contra hform
    refine h.parse_ne_ok (show Break [] by simp [Break]) (fun t ht => ?_) p ?_
    · refine standard_after?_nil (Token.mem_spelled.mpr ?_)
      rintro rfl
      exact hform ht
    · rwa [List.append_nil, String.ofList_toList]

theorem complete (h : Rejects before.toList rest.toList expected) {t : Token}
    (ht : t ∈ Token.spelled)
    (hfar : ∀ form ∈ expected, ¬ BeginsWith form t.phrase ∧ ¬ BeginsWith t.phrase form) :
    ¬ GoesOn before t.phrase := by
  rintro ⟨more, p, hp⟩
  have hafter := Token.after?_spaced ht more.toList
  refine h.parse_ne_ok (k := [' '] ++ (t.phrase.toList ++ ([' '] ++ more.toList)))
    (break_space _) (fun u hu => ?_) p ?_
  · -- If a token of the report came next there too, one of the two phrases would begin the other.
    by_contra hne
    obtain ⟨r, hr⟩ := Option.ne_none_iff_exists'.mp hne
    by_cases hend : u = .endOfInput
    · rw [hend] at hr
      rw [(after?_endOfInput.mp hr).1, standard_after?_nil ht] at hafter
      cases hafter
    · rw [standard_after? (Token.mem_spelled.mpr hend)] at hr
      rw [standard_after? ht] at hafter
      rcases Phrase.afterWords?_comparable hr hafter with hp | hp
      · exact (hfar _ hu).2 hp
      · exact (hfar _ hu).1 hp
  · rwa [ofList_spaced]

end Rejects

/-- Where something unexpected comes, the report lists the ways in which the text before it goes
on. -/
theorem expected_of_parse {source : String} {d : Diagnostic} {expected : List String}
    (h : parse source = .error d) (hf : d.fault = .unexpected expected) :
    ∃ before rest : String, source = before ++ rest ∧ before.utf8ByteSize = d.position.offset ∧
      Continuations before expected := by
  obtain ⟨before, rest, hsource, hoffset, hr⟩ := exists_rejects h hf
  exact ⟨before, rest, hsource, hoffset, fun _ => hr.goesOn, hr.ends, fun _ => hr.complete⟩

theorem expected_of_parse_otherwise :
    parse "if x do otherwise" = .error ⟨.unexpected ["do"], ⟨1, 17, 17⟩⟩ ∧
      ∃ before rest : String, "if x do otherwise" = before ++ rest ∧ before.utf8ByteSize = 17 ∧
        Continuations before ["do"] := by
  have h : parse "if x do otherwise" = .error ⟨.unexpected ["do"], ⟨1, 17, 17⟩⟩ := by
    decide +kernel
  exact ⟨h, expected_of_parse h rfl⟩

end Wordy
