import Mathlib
import Wordy.Proofs.Progress

/-! Calls to the readers of tokens, names and quoted texts, one after another on one cursor. A call
that looks ahead or finds nothing leaves the cursor where it is; one that reads moves it to the
start of a later word. What is found ahead is what would be read. -/

namespace Wordy

open Text

inductive Call
  | peek (tokens : List Token)
  | extract (tokens : List Token)
  | name
  | quotation
deriving DecidableEq, Repr

inductive Answer
  | nothing
  | token (token : Token)
  | text (contents : String)
  | failure (diagnostic : Diagnostic)
deriving DecidableEq, Repr

namespace Answer

def ofToken : Option Token → Answer
  | none => nothing
  | some t => token t

def ofText : Option String → Answer
  | none => nothing
  | some contents => text contents

def isFound : Answer → Bool
  | token _ => true
  | text _ => true
  | _ => false

end Answer

namespace Call

def read (book : Phrasebook) : Call → Reader Answer
  | peek tokens => return .ofToken (← Reader.peek book id tokens)
  | extract tokens => return .token (← Reader.take book id tokens)
  | name => return .text (← Reader.name book)
  | quotation => return .ofText (← Reader.quotation?)

/-- The call reads a piece of the text and does not only look for one. -/
def isExtraction : Call → Bool
  | peek _ => false
  | _ => true

/-- What the call comes to, and the cursor after it. A failure leaves a cursor too. -/
def run (book : Phrasebook) (source : List Char) (call : Call) (c : Cursor) : Answer × Cursor :=
  match call.read book c with
  | .ok answer d => (answer, d)
  | .error failure d => (.failure (failure.locate source), d)

/-- The answers to the calls in their order, and the cursor after the last one. -/
def runAll (book : Phrasebook) (source : List Char) : List Call → Cursor → List Answer × Cursor
  | [], c => ([], c)
  | call :: calls, c =>
    let (answer, d) := call.run book source c
    let (answers, e) := runAll book source calls d
    (answer :: answers, e)

variable {book : Phrasebook} {source : List Char} {c : Cursor} {tokens : List Token}

theorem run_peek : (peek tokens).run book source c =
    (.ofToken ((book.first c.ahead id tokens).2.map (·.1)),
      ⟨c.rest, c.tried ++ (book.first c.ahead id tokens).1⟩) := rfl

theorem run_extract_of_some {t : Token} {rest : List Char}
    (h : (book.first c.ahead id tokens).2 = some (t, rest)) :
    (extract tokens).run book source c = (.token t, ⟨rest, []⟩) := by
  rw [run, read, Reader.bind_of_ok (Reader.take_eq_of_some (Reader.take?_eq_of_some h))]
  rfl

theorem run_extract_of_none (h : (book.first c.ahead id tokens).2 = none) :
    (extract tokens).run book source c =
      (.failure ⟨.unexpected (book.forms (c.tried ++ tokens)), placeOf source c.ahead⟩,
        ⟨c.rest, c.tried ++ tokens⟩) := by
  have htake := Reader.take_eq_of_none
    (Reader.take?_eq_of_none (Phrasebook.after?_eq_none_of_first h))
  rw [List.map_id] at htake
  rw [run, read, Reader.bind_eq_error.mpr (.inl htake)]
  rfl

theorem run_name_of_nil (h : c.ahead = []) :
    name.run book source c = (.failure ⟨.endOfText, placeOf source c.ahead⟩, c) := by
  have hname : Reader.name book c = .error ⟨.endOfText, c.ahead⟩ c := by
    change (if c.ahead = [] then _ else _ : Reader String) c = _
    rw [if_pos h]
    rfl
  rw [run, read, Reader.bind_eq_error.mpr (.inl hname)]
  rfl

theorem run_name_of_isReserved (hne : c.ahead ≠ []) (h : book.isReserved (word c.ahead) = true) :
    name.run book source c =
      (.failure ⟨.reserved (.ofList (word c.ahead)), placeOf source c.ahead⟩, c) := by
  have hname : Reader.name book c = .error ⟨.reserved (.ofList (word c.ahead)), c.ahead⟩ c := by
    change (if c.ahead = [] then _ else if _ then _ else _ : Reader String) c = _
    rw [if_neg hne, if_pos h]
    rfl
  rw [run, read, Reader.bind_eq_error.mpr (.inl hname)]
  rfl

theorem run_name (hne : c.ahead ≠ []) (h : book.isReserved (word c.ahead) = false) :
    name.run book source c = (.text (.ofList (word c.ahead)), ⟨afterWord c.ahead, []⟩) := by
  have hname : Reader.name book c = .ok (.ofList (word c.ahead)) ⟨afterWord c.ahead, []⟩ := by
    change (if c.ahead = [] then _ else if _ then _ else _ : Reader String) c = _
    rw [if_neg hne, if_neg (by simp [h])]
    rfl
  rw [run, read, Reader.bind_of_ok hname]
  rfl

theorem run_quotation_of_none (h : Reader.quoted? c.ahead = none) :
    quotation.run book source c = (.nothing, c) := by
  rw [run, read, Reader.bind_of_ok (Reader.quotation?_eq_of_none h)]
  rfl

theorem run_quotation {contents rest : List Char}
    (h : Reader.quoted? c.ahead = some (contents, rest)) :
    quotation.run book source c = (.text (.ofList contents), ⟨skipBlank rest, []⟩) := by
  rw [run, read, Reader.bind_of_ok (Reader.quotation?_eq_of_some h)]
  rfl

theorem runAll_cons (call : Call) (calls : List Call) :
    (runAll book source (call :: calls) c).2 =
      (runAll book source calls (call.run book source c).2).2 := rfl

end Call

theorem Phrase.skipBlank_of_after? {phrase text rest : List Char}
    (h : after? phrase text = some rest) : skipBlank rest = rest := by
  unfold after? at h
  split at h
  · cases h
    rfl
  · split at h
    · cases h
      exact skipBlank_skipBlank _
    · cases h
  · cases h

namespace Phrasebook

variable {book : Phrasebook} {t : Token} {text rest : List Char}

theorem skipBlank_of_after? (h : book.after? t text = some rest) : skipBlank rest = rest := by
  unfold after? at h
  split at h
  · split at h
    · cases h
      rfl
    · cases h
  · split at h
    · exact Phrase.skipBlank_of_after? h
    · cases h

end Phrasebook

namespace Call

variable {book : Phrasebook} {source : List Char} {c : Cursor}

/-- A call leaves the cursor where it is, or it reads something and what is left starts with a later
word or is empty. -/
theorem run_cases (book : Phrasebook) (source : List Char) (call : Call) (c : Cursor) :
    (call.isExtraction = false ∨ (call.run book source c).1.isFound = false) ∧
        (call.run book source c).2.rest = c.rest ∨
      call.isExtraction = true ∧ (call.run book source c).1.isFound = true ∧
        (call.run book source c).2.rest <:+ c.ahead ∧
        (call.run book source c).2.ahead = (call.run book source c).2.rest := by
  cases call with
  | peek tokens => exact .inl ⟨.inl rfl, rfl⟩
  | extract tokens =>
    cases hf : (book.first c.ahead id tokens).2 with
    | none =>
      rw [run_extract_of_none hf]
      exact .inl ⟨.inr rfl, rfl⟩
    | some found =>
      obtain ⟨-, ha⟩ := Phrasebook.mem_of_first_eq_some hf
      rw [run_extract_of_some hf]
      exact .inr ⟨rfl, rfl, Phrasebook.after?_suffix ha, Phrasebook.skipBlank_of_after? ha⟩
  | name =>
    by_cases hnil : c.ahead = []
    · rw [run_name_of_nil hnil]
      exact .inl ⟨.inr rfl, rfl⟩
    · cases hr : book.isReserved (word c.ahead) with
      | true =>
        rw [run_name_of_isReserved hnil hr]
        exact .inl ⟨.inr rfl, rfl⟩
      | false =>
        rw [run_name hnil hr]
        exact .inr ⟨rfl, rfl, afterWord_suffix _, skipBlank_afterWord _⟩
  | quotation =>
    cases hq : Reader.quoted? c.ahead with
    | none =>
      rw [run_quotation_of_none hq]
      exact .inl ⟨.inr rfl, rfl⟩
    | some found =>
      have hrest : found.2 <:+ c.ahead := Reader.quoted?_suffix hq
      rw [run_quotation hq]
      exact .inr ⟨rfl, rfl, (skipBlank_suffix _).trans hrest, skipBlank_skipBlank _⟩

theorem run_suffix (call : Call) : (call.run book source c).2.rest <:+ c.rest := by
  rcases run_cases book source call c with ⟨-, h⟩ | ⟨-, -, h, -⟩
  · rw [h]
  · exact h.trans (skipBlank_suffix c.rest)

theorem runAll_suffix (calls : List Call) : (runAll book source calls c).2.rest <:+ c.rest := by
  induction calls generalizing c with
  | nil => exact List.suffix_refl c.rest
  | cons call calls ih =>
    rw [runAll_cons]
    exact ih.trans (run_suffix call)

/-- What comes next is found by looking ahead exactly if it is read. -/
theorem peek_eq_token_iff {tokens : List Token} {t : Token} :
    ((peek tokens).run book source c).1 = .token t ↔
      ((extract tokens).run book source c).1 = .token t := by
  rw [run_peek]
  cases hf : (book.first c.ahead id tokens).2 with
  | none => simp [run_extract_of_none hf, Answer.ofToken]
  | some found => simp [run_extract_of_some hf, Answer.ofToken]

/-- The token that was found ahead is read as well when it is the only one that is looked for, also
after the call that found it. -/
theorem run_extract_singleton {tokens : List Token} {t : Token}
    (h : ((extract tokens).run book source c).1 = .token t) :
    (extract [t]).run book source c = (extract tokens).run book source c ∧
      (extract [t]).run book source ((peek tokens).run book source c).2 =
        (extract tokens).run book source c := by
  cases hf : (book.first c.ahead id tokens).2 with
  | none => simp [run_extract_of_none hf] at h
  | some found =>
    obtain ⟨-, ha⟩ := Phrasebook.mem_of_first_eq_some hf
    rw [run_extract_of_some hf] at h
    obtain rfl : found.1 = t := Answer.token.inj h
    have hsingle : (book.first c.ahead id [found.1]).2 = some (found.1, found.2) := by
      rw [Phrasebook.first, show book.after? (id found.1) c.ahead = some found.2 from ha]
    have hafter : (extract [found.1]).run book source ((peek tokens).run book source c).2 =
        (.token found.1, ⟨found.2, []⟩) := run_extract_of_some hsingle
    rw [hafter, run_extract_of_some hsingle, run_extract_of_some hf]
    exact ⟨rfl, rfl⟩

end Call

end Wordy
