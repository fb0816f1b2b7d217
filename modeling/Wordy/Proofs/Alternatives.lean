import Mathlib
import Wordy.Proofs.ByteOrder
import Wordy.Proofs.Calls

/-! The alternatives that a failure lists. A cursor remembers the tokens that were looked for and
missed since it moved last. The calls and their answers show the same tokens, so that what a failing
call lists can be told without the cursor: the forms of the tokens that were missed after the last
call that read something, in the order of their bytes. -/

namespace Wordy

open Text

/-- How a token is shown: the end of the text in parentheses, any other token by its phrase or,
where it has none, by its name. -/
inductive Phrasebook.Shows (book : Phrasebook) : Token → String → Prop
  | endOfInput : Shows book .endOfInput "(EOF)"
  | phrase {t : Token} {phrase : String} (ht : t ≠ .endOfInput)
      (h : book.phrase? t = some phrase) : Shows book t phrase
  | name {t : Token} (ht : t ≠ .endOfInput) (h : book.phrase? t = none) : Shows book t t.name

namespace Phrasebook

variable {book : Phrasebook} {text : List Char} {tokens : List Token}

theorem form_eq_iff {t : Token} {form : String} : book.form t = form ↔ book.Shows t form := by
  constructor
  · rintro rfl
    unfold Phrasebook.form
    split_ifs with ht
    · subst ht
      exact .endOfInput
    · cases h : book.phrase? t with
      | none => exact .name ht h
      | some phrase => exact .phrase ht h
  · intro h
    cases h with
    | endOfInput => rfl
    | phrase ht h => rw [Phrasebook.form, if_neg ht, h, Option.getD_some]
    | name ht h => rw [Phrasebook.form, if_neg ht, h, Option.getD_none]

/-- The tokens that are missed are those before the first one that is found. -/
theorem first_eq_takeWhile {t : Token} {rest : List Char}
    (h : (book.first text id tokens).2 = some (t, rest)) :
    (book.first text id tokens).1 = tokens.takeWhile (· != t) := by
  induction tokens with
  | nil => cases h
  | cons u tokens ih =>
    rw [first] at h ⊢
    cases hu : book.after? (id u) text with
    | some rest' =>
      rw [hu] at h
      obtain rfl : u = t := congrArg Prod.fst (Option.some.inj h)
      simp
    | none =>
      rw [hu] at h
      obtain ⟨-, ht⟩ := mem_of_first_eq_some h
      have hne : u ≠ t := by
        rintro rfl
        cases hu.symm.trans ht
      simp [hne, ih h]

theorem after?_eq_none_of_missed {t : Token} (ht : t ∈ (book.first text id tokens).1) :
    book.after? t text = none := by
  induction tokens with
  | nil => cases ht
  | cons u tokens ih =>
    rw [first] at ht
    cases hu : book.after? (id u) text with
    | some rest =>
      rw [hu] at ht
      cases ht
    | none =>
      rw [hu] at ht
      rcases List.mem_cons.mp ht with rfl | ht
      · exact hu
      · exact ih ht

end Phrasebook

namespace Call

def tokens : Call → List Token
  | peek tokens => tokens
  | extract tokens => tokens
  | _ => []

/-- The call has read something. -/
def moves (e : Call × Answer) : Bool := e.1.isExtraction && e.2.isFound

/-- The tokens that the call has missed: all, or those before the one that it found. -/
def missed : Call × Answer → List Token
  | (call, .token t) => call.tokens.takeWhile (· != t)
  | (call, _) => call.tokens

/-- The tokens that were missed after the last call that read something. -/
def missedSinceMove (history : List (Call × Answer)) : List Token :=
  (history.rtakeWhile (!moves ·)).flatMap missed

theorem missedSinceMove_concat (history : List (Call × Answer)) (e : Call × Answer) :
    missedSinceMove (history ++ [e]) =
      if moves e then [] else missedSinceMove history ++ missed e := by
  cases he : moves e <;> simp [missedSinceMove, he]

def history (book : Phrasebook) (source : List Char) (calls : List Call) (c : Cursor) :
    List (Call × Answer) :=
  calls.zip (runAll book source calls c).1

end Call

/-- What the cursor remembers after the calls. -/
structure Cursor.Recalls (book : Phrasebook) (history : List (Call × Answer)) (c : Cursor) :
    Prop where
  tried : c.tried = Call.missedSinceMove history
  missed : ∀ t ∈ c.tried, book.after? t c.ahead = none

namespace Cursor.Recalls

open Call

variable {book : Phrasebook} {source : List Char} {earlier : List (Call × Answer)} {c : Cursor}

theorem start (book : Phrasebook) (text : List Char) : (Cursor.start text).Recalls book [] where
  tried := rfl
  missed := nofun

/-- A call that moved the cursor leaves it nothing to remember. -/
theorem moved {e : Call × Answer} (h : moves e = true) (rest : List Char) :
    (⟨rest, []⟩ : Cursor).Recalls book (earlier ++ [e]) where
  tried := by rw [missedSinceMove_concat, if_pos h]
  missed := nofun

theorem stayed (h : c.Recalls book earlier) {e : Call × Answer} (he : moves e = false)
    (hmissed : ∀ t ∈ Call.missed e, book.after? t c.ahead = none) :
    (⟨c.rest, c.tried ++ Call.missed e⟩ : Cursor).Recalls book (earlier ++ [e]) where
  tried := by rw [missedSinceMove_concat, if_neg (by simp [he]), h.tried]
  missed := by
    intro t ht
    rcases List.mem_append.mp ht with ht | ht
    · exact h.missed t ht
    · exact hmissed t ht

theorem stayed_nothing (h : c.Recalls book earlier) {e : Call × Answer} (he : moves e = false)
    (hmissed : Call.missed e = []) : c.Recalls book (earlier ++ [e]) := by
  have hstayed := h.stayed he (by simp [hmissed])
  rwa [hmissed, List.append_nil] at hstayed

theorem step (h : c.Recalls book earlier) (source : List Char) (call : Call) :
    (call.run book source c).2.Recalls book (earlier ++ [(call, (call.run book source c).1)]) := by
  -- A call that reads something starts the memory anew; any other one adds what it has missed.
  cases call with
  | peek tokens =>
    rw [run_peek]
    have hmissed : (book.first c.ahead id tokens).1 = Call.missed
        (peek tokens, .ofToken ((book.first c.ahead id tokens).2.map (·.1))) := by
      cases hf : (book.first c.ahead id tokens).2 with
      | none =>
        rw [Phrasebook.first_eq_none (Phrasebook.after?_eq_none_of_first hf), List.map_id]
        rfl
      | some found => exact Phrasebook.first_eq_takeWhile hf
    -- What was found ahead, and the tokens after it, are not counted as missed.
    rw [hmissed]
    refine h.stayed rfl fun t ht => ?_
    rw [← hmissed] at ht
    exact Phrasebook.after?_eq_none_of_missed ht
  | extract tokens =>
    cases hf : (book.first c.ahead id tokens).2 with
    | none =>
      rw [run_extract_of_none hf]
      exact h.stayed rfl (Phrasebook.after?_eq_none_of_first hf)
    | some found =>
      rw [run_extract_of_some hf]
      exact moved rfl found.2
  | name =>
    by_cases hnil : c.ahead = []
    · rw [run_name_of_nil hnil]
      exact h.stayed_nothing rfl rfl
    · cases hr : book.isReserved (word c.ahead) with
      | true =>
        rw [run_name_of_isReserved hnil hr]
        exact h.stayed_nothing rfl rfl
      | false =>
        rw [run_name hnil hr]
        exact moved rfl (afterWord c.ahead)
  | quotation =>
    cases hq : Reader.quoted? c.ahead with
    | none =>
      rw [run_quotation_of_none hq]
      exact h.stayed_nothing rfl rfl
    | some found =>
      rw [run_quotation hq]
      exact moved rfl (skipBlank found.2)

theorem of_history (h : c.Recalls book earlier) {calls : List Call}
    {before after : List (Call × Answer)} {call : Call} {answer : Answer}
    (hh : history book source calls c = before ++ (call, answer) :: after) :
    ∃ d : Cursor, d.Recalls book (earlier ++ before) ∧ (call.run book source d).1 = answer := by
  induction calls generalizing c earlier before with
  | nil => simp [history, runAll] at hh
  | cons first calls ih =>
    have hcons : history book source (first :: calls) c =
        (first, (first.run book source c).1) ::
          history book source calls (first.run book source c).2 := rfl
    rw [hcons] at hh
    cases before with
    | nil =>
      obtain ⟨he, -⟩ := List.cons.inj hh
      obtain ⟨rfl, rfl⟩ := Prod.mk.inj he
      exact ⟨c, by simpa using h, rfl⟩
    | cons e before =>
      obtain ⟨rfl, hrest⟩ := List.cons.inj hh
      obtain ⟨d, hd, hanswer⟩ := ih (h.step source first) hrest
      exact ⟨d, by simpa using hd, hanswer⟩

end Cursor.Recalls

namespace Call

variable {book : Phrasebook} {source : List Char} {c : Cursor}

theorem first_of_failure {tokens : List Token} {d : Diagnostic}
    (h : ((extract tokens).run book source c).1 = .failure d) :
    (book.first c.ahead id tokens).2 = none := by
  cases hf : (book.first c.ahead id tokens).2 with
  | none => rfl
  | some found =>
    rw [run_extract_of_some hf] at h
    cases h

end Call

/-- The report lists the forms of the missed tokens, and these are missing at its place. -/
structure Diagnostic.ListsMissed (book : Phrasebook) (source : List Char) (missed : List Token)
    (d : Diagnostic) : Prop where
  unexpected : d.fault = .unexpected d.fault.expected
  increasing : d.fault.expected.Pairwise fun a b => utf8 a < utf8 b
  mem_expected : ∀ form, form ∈ d.fault.expected ↔ ∃ t ∈ missed, book.Shows t form
  message : d.fault.message = "Expected: " ++ " | ".intercalate d.fault.expected ++ "."
  missing : ∃ rest, d.position = placeOf source rest ∧ ∀ t ∈ missed, book.after? t rest = none

theorem Cursor.Recalls.listsMissed {book : Phrasebook} {history : List (Call × Answer)}
    {c : Cursor} (h : c.Recalls book history) (source : List Char) :
    Diagnostic.ListsMissed book source (Call.missedSinceMove history)
      ⟨.unexpected (book.forms c.tried), placeOf source c.ahead⟩ where
  unexpected := rfl
  increasing := book.pairwise_forms c.tried
  mem_expected form := by
    simp only [Fault.expected, Phrasebook.mem_forms, Phrasebook.form_eq_iff, h.tried]
  message := rfl
  missing := ⟨c.ahead, rfl, h.tried ▸ h.missed⟩

open Call

/-- Wherever in a run of calls a token cannot be read, the report lists each form of a token that
was missed since something was read last, this call included, once and in the order of the
bytes. -/
theorem listsMissed_of_history {book : Phrasebook} {source : String} {calls : List Call}
    {before after : List (Call × Answer)} {tokens : List Token} {d : Diagnostic}
    (h : history book source.toList calls (.start source.toList) =
      before ++ (extract tokens, .failure d) :: after) :
    d.ListsMissed book source.toList
      (missedSinceMove (before ++ [(extract tokens, .failure d)])) := by
  obtain ⟨c, hc, hfailure⟩ := (Cursor.Recalls.start book source.toList).of_history h
  have hnext := hc.step source.toList (extract tokens)
  have hrun : (extract tokens).run book source.toList c = _ :=
    run_extract_of_none (first_of_failure hfailure)
  rw [hfailure, hrun, List.nil_append] at hnext
  rw [hrun] at hfailure
  obtain rfl := Answer.failure.inj hfailure
  exact hnext.listsMissed source.toList

/-- What was missed before the name is forgotten, and what is missed twice is listed once. -/
theorem listsMissed_of_history_banana :
    history .standard "print 1\n  banana".toList [peek [.setWord], extract [.print], name,
        peek [.plus, .minus], quotation, peek [.minus], extract [.endOfInput, .print]]
        (.start "print 1\n  banana".toList) =
      [(peek [.setWord], Answer.nothing), (extract [.print], .token .print), (name, .text "1"),
        (peek [.plus, .minus], .nothing), (quotation, .nothing), (peek [.minus], .nothing)] ++
      [(extract [.endOfInput, .print],
        Answer.failure ⟨.unexpected ["(EOF)", "minus", "plus", "print"], ⟨2, 2, 10⟩⟩)] ∧
    Diagnostic.ListsMissed .standard "print 1\n  banana".toList
      [.plus, .minus, .minus, .endOfInput, .print]
      ⟨.unexpected ["(EOF)", "minus", "plus", "print"], ⟨2, 2, 10⟩⟩ := by
  have h : history .standard "print 1\n  banana".toList [peek [.setWord], extract [.print], name,
      peek [.plus, .minus], quotation, peek [.minus], extract [.endOfInput, .print]]
      (.start "print 1\n  banana".toList) =
    [(peek [.setWord], Answer.nothing), (extract [.print], .token .print), (name, .text "1"),
      (peek [.plus, .minus], .nothing), (quotation, .nothing), (peek [.minus], .nothing)] ++
    [(extract [.endOfInput, .print],
      Answer.failure ⟨.unexpected ["(EOF)", "minus", "plus", "print"], ⟨2, 2, 10⟩⟩)] := by
    decide +kernel
  exact ⟨h, listsMissed_of_history h⟩

end Wordy
