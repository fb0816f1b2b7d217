import Mathlib
import Wordy.Proofs.Lexemes

/-! What a reader reads, as a list of lexemes. A reader yields values of a shape when each value it
returns has that shape together with the lexemes that it moved past; a sequence of readers is
followed from left to right, with the lexemes so far put in front of those to come. -/

namespace Wordy

open Text

namespace Reader

variable {α β : Type} {book : Phrasebook}

theorem bind_of_ok {R : Reader α} {f : α → Reader β} {c d : Cursor} {a : α} (h : R c = .ok a d) :
    (R >>= f) c = f a d := by
  change EStateM.bind R f c = _
  rw [EStateM.bind, h]

theorem bind_eq_ok {R : Reader α} {f : α → Reader β} {c d : Cursor} {b : β} :
    (R >>= f) c = .ok b d ↔ ∃ a c', R c = .ok a c' ∧ f a c' = .ok b d := by
  change EStateM.bind R f c = _ ↔ _
  rw [EStateM.bind]
  cases R c <;> simp

theorem bind_eq_error {R : Reader α} {f : α → Reader β} {c s : Cursor} {e : Failure} :
    (R >>= f) c = .error e s ↔
      R c = .error e s ∨ ∃ a c', R c = .ok a c' ∧ f a c' = .error e s := by
  change EStateM.bind R f c = _ ↔ _
  rw [EStateM.bind]
  cases R c <;> simp

/-- Every value that the reader returns has the shape, together with the lexemes moved past. -/
def Yields (book : Phrasebook) (R : Reader α) (shape : α → List Lexeme → Prop) : Prop :=
  ∀ ⦃c : Cursor⦄ ⦃a : α⦄ ⦃d : Cursor⦄, R c = .ok a d →
    ∃ ls, shape a ls ∧ Reads book ls c.rest d.rest

theorem Yields.bind {R : Reader α} {f : α → Reader β} {V : α → List Lexeme → Prop}
    {W : β → List Lexeme → Prop} (hR : Yields book R V)
    (hf : ∀ a ls, V a ls → Yields book (f a) fun b ms => W b (ls ++ ms)) :
    Yields book (R >>= f) W := by
  intro c b d h
  obtain ⟨a, c', ha, hb⟩ := bind_eq_ok.mp h
  obtain ⟨ls, hv, hl⟩ := hR ha
  obtain ⟨ms, hw, hm⟩ := hf a ls hv hb
  exact ⟨ls ++ ms, hw, hl.append hm⟩

theorem Yields.pure {W : α → List Lexeme → Prop} {a : α} (h : W a []) :
    Yields book (pure a) W := by
  intro c b d hb
  cases hb
  exact ⟨[], h, .nil⟩

theorem Yields.throw {W : α → List Lexeme → Prop} {failure : Failure} :
    Yields book (throw failure) W :=
  fun _ _ _ h => nomatch h

theorem Yields.mono {R : Reader α} {V W : α → List Lexeme → Prop} (hR : Yields book R V)
    (h : ∀ a ls, V a ls → W a ls) : Yields book R W := by
  intro c a d ha
  obtain ⟨ls, hv, hl⟩ := hR ha
  exact ⟨ls, h a ls hv, hl⟩

theorem yields_get : Yields book (get : Reader Cursor) fun _ ls => ls = [] := by
  intro c a d h
  cases h
  exact ⟨[], rfl, .nil⟩

theorem yields_ahead : Yields book ahead fun _ ls => ls = [] :=
  yields_get.bind fun _ _ hls => .pure (by simpa using hls)

theorem take?_eq_of_some {token : α → Token} {values : List α} {c : Cursor} {value : α}
    {rest : List Char} (h : (book.first c.ahead token values).2 = some (value, rest)) :
    take? book token values c = .ok (some value) ⟨rest, []⟩ := by
  change (take? book token values).run c = _
  simp only [take?, EStateM.run_bind, EStateM.run_get]
  cases hf : book.first c.ahead token values with
  | mk missed found =>
    obtain rfl : found = some (value, rest) := by rw [hf] at h; exact h
    rfl

theorem take?_eq_of_none {token : α → Token} {values : List α} {c : Cursor}
    (h : ∀ value ∈ values, book.after? (token value) c.ahead = none) :
    take? book token values c = .ok none ⟨c.rest, c.tried ++ values.map token⟩ := by
  change (take? book token values).run c = _
  simp only [take?, EStateM.run_bind, EStateM.run_get, Phrasebook.first_eq_none h]
  rfl

/-- The lexemes of a choice that found one of the values, or none of them. -/
def Choice (token : α → Token) (values : List α) : Option α → List Lexeme → Prop
  | none, ls => ls = []
  | some value, ls => value ∈ values ∧ ls = [.token (token value)]

theorem take?_cases (book : Phrasebook) (token : α → Token) (values : List α) (c : Cursor) :
    (∃ value rest, value ∈ values ∧ book.after? (token value) c.ahead = some rest ∧
      take? book token values c = .ok (some value) ⟨rest, []⟩) ∨
    (∀ value ∈ values, book.after? (token value) c.ahead = none) ∧
      take? book token values c = .ok none ⟨c.rest, c.tried ++ values.map token⟩ := by
  cases hf : (book.first c.ahead token values).2 with
  | none =>
    have hn := Phrasebook.after?_eq_none_of_first hf
    exact .inr ⟨hn, take?_eq_of_none hn⟩
  | some found =>
    obtain ⟨hm, ha⟩ := Phrasebook.mem_of_first_eq_some hf
    exact .inl ⟨found.1, found.2, hm, ha, take?_eq_of_some hf⟩

theorem take?_ne_error {token : α → Token} {values : List α} {c s : Cursor} {e : Failure} :
    take? book token values c ≠ .error e s := by
  intro h
  rcases take?_cases book token values c with ⟨_, _, _, _, ht⟩ | ⟨-, ht⟩
  · rw [ht] at h
    cases h
  · rw [ht] at h
    cases h

theorem take_eq_of_some {token : α → Token} {values : List α} {c d : Cursor} {value : α}
    (h : take? book token values c = .ok (some value) d) :
    take book token values c = .ok value d := by
  rw [take, bind_of_ok h]
  rfl

theorem take_eq_of_none {token : α → Token} {values : List α} {c d : Cursor}
    (h : take? book token values c = .ok none d) :
    take book token values c = .error ⟨.unexpected (book.forms d.tried), d.ahead⟩ d := by
  rw [take, bind_of_ok h]
  rfl

theorem yields_take? {token : α → Token} {values : List α} :
    Yields book (take? book token values) (Choice token values) := by
  intro c a d h
  rcases take?_cases book token values c with ⟨value, rest, hm, ha, ht⟩ | ⟨-, ht⟩
  · rw [ht] at h
    cases h
    exact ⟨_, ⟨hm, rfl⟩, .single (.token ha)⟩
  · rw [ht] at h
    cases h
    exact ⟨[], rfl, .nil⟩

theorem accept_bind {t : Token} (g : Bool → Reader β) :
    accept book t >>= g = take? book id [t] >>= fun found => g found.isSome := by
  simp [accept]

theorem accept_ne_error {t : Token} {c s : Cursor} {e : Failure} :
    accept book t c ≠ .error e s := by
  intro h
  rcases bind_eq_error.mp h with h | ⟨_, _, -, h⟩
  · exact take?_ne_error h
  · cases h

theorem rest_of_accept_false {t : Token} {c d : Cursor} (h : accept book t c = .ok false d) :
    d.rest = c.rest := by
  obtain ⟨found, d', hf, h⟩ := bind_eq_ok.mp h
  rcases take?_cases book id [t] c with ⟨_, _, _, _, ht⟩ | ⟨-, ht⟩
  · rw [ht] at hf
    cases hf
    cases h
  · rw [ht] at hf
    cases hf
    cases h
    rfl

theorem yields_accept {t : Token} :
    Yields book (accept book t) fun found ls => ls = if found then [.token t] else [] := by
  unfold accept
  refine yields_take?.bind fun found ls hls => .pure ?_
  cases found with
  | none => simpa [Choice] using hls
  | some u =>
    obtain ⟨hu, rfl⟩ := hls
    simp [List.mem_singleton.mp hu]

theorem name_eq {c : Cursor} (hne : c.ahead ≠ []) (hr : book.isReserved (word c.ahead) = false) :
    name book c = .ok (.ofList (word c.ahead)) ⟨afterWord c.ahead, []⟩ := by
  rw [name, bind_of_ok (show ahead c = .ok c.ahead c from rfl), if_neg hne, if_neg (by simp [hr])]
  rfl

theorem name_eq_ok {c d : Cursor} {n : String} (h : name book c = .ok n d) :
    c.ahead ≠ [] ∧ book.isReserved (word c.ahead) = false ∧ n = .ofList (word c.ahead) ∧
      d = ⟨afterWord c.ahead, []⟩ := by
  rw [name, bind_eq_ok] at h
  obtain ⟨_, _, ha, h⟩ := h
  cases ha
  split at h
  · cases h
  · next hne =>
    split at h
    · cases h
    · next hr =>
      cases h
      exact ⟨hne, by simpa using hr, rfl, rfl⟩

theorem name_eq_error {c s : Cursor} {e : Failure} (h : name book c = .error e s) :
    (e.fault = .endOfText ∨ ∃ w, e.fault = .reserved w) ∧ e.rest = c.ahead := by
  rw [name, bind_eq_error] at h
  rcases h with h | ⟨_, _, ha, h⟩
  · cases h
  · cases ha
    split at h
    · cases h
      exact ⟨.inl rfl, rfl⟩
    · split at h
      · cases h
        exact ⟨.inr ⟨_, rfl⟩, rfl⟩
      · cases h

theorem yields_name : Yields book (name book) fun n ls => ls = [.word n] := by
  intro c n d h
  obtain ⟨hne, hr, rfl, rfl⟩ := name_eq_ok h
  exact ⟨_, rfl, .single (.word hne hr)⟩

theorem quotation?_eq_of_some {c : Cursor} {contents rest : List Char}
    (h : quoted? c.ahead = some (contents, rest)) :
    quotation? c = .ok (some (.ofList contents)) ⟨skipBlank rest, []⟩ := by
  change quotation?.run c = _
  simp only [quotation?, ahead, EStateM.run_bind, EStateM.run_get, EStateM.run_pure, h]
  rfl

theorem quotation?_eq_of_none {c : Cursor} (h : quoted? c.ahead = none) :
    quotation? c = .ok none c := by
  change quotation?.run c = _
  simp only [quotation?, ahead, EStateM.run_bind, EStateM.run_get, EStateM.run_pure, h]

theorem yields_quotation? :
    Yields book quotation? fun found ls => ls = found.toList.map .quotation := by
  intro c found d h
  cases hq : quoted? c.ahead with
  | none =>
    rw [quotation?_eq_of_none hq] at h
    cases h
    exact ⟨[], rfl, .nil⟩
  | some quoted =>
    rw [quotation?_eq_of_some hq] at h
    cases h
    exact ⟨_, rfl, .single (.quotation hq)⟩

end Reader

end Wordy
