import Mathlib
import Wordy.Proofs.Grammar
import Wordy.Proofs.Yields

/-! What a reader reads, and what it would have gone on with. A token that was looked for in vain is
an offer: with it and some filler behind it the reader reaches a goal. So is, where the text ends
too early, whatever filler can stand there. A sequence of readers keeps the offers of its first
reader if each goal of that one leads to a goal of the whole. -/

namespace Wordy

open Text

/-- A lexeme that can be filled in wherever the grammar has one of its kind. -/
def Lexeme.isFiller : Lexeme → Bool
  | token _ => true
  | word w => w == "x"
  | quotation _ => false

def Filler (ls : List Lexeme) : Prop := ∀ l ∈ ls, l.isFiller = true

@[simp] theorem filler_nil : Filler [] := by simp [Filler]

@[simp] theorem filler_token {t : Token} {ls : List Lexeme} :
    Filler (.token t :: ls) ↔ Filler ls := by
  simp [Filler, Lexeme.isFiller]

@[simp] theorem filler_word {ls : List Lexeme} : Filler (.word "x" :: ls) ↔ Filler ls := by
  simp [Filler, Lexeme.isFiller]

@[simp] theorem filler_append {ls ms : List Lexeme} :
    Filler (ls ++ ms) ↔ Filler ls ∧ Filler ms :=
  List.forall_mem_append

/-- The lexemes end with an expression that has no room for one operator more. -/
def Full (ls : List Lexeme) (u : Token) : Prop :=
  ∃ (before es : List Lexeme) (e : Expression) (operator : BinaryOperator),
    ls = before ++ es ∧ e.Written es ∧ e.operators = maxOperators ∧ u = operator.token

theorem Full.append_left {ls ms : List Lexeme} {u : Token} (h : Full ms u) : Full (ls ++ ms) u := by
  obtain ⟨before, es, e, operator, rfl, he⟩ := h
  exact ⟨ls ++ before, es, e, operator, (List.append_assoc ..).symm, he⟩

variable {α β : Type}

/-- Something leads from the lexemes to a goal. -/
def Open (goal : α → List Lexeme → Prop) (ls : List Lexeme) : Prop :=
  ∃ a more, Filler more ∧ goal a (ls ++ more)

/-- After the lexemes the token leads to a goal, or something else does and the token is an operator
too many. -/
def Offer (goal : α → List Lexeme → Prop) (ls : List Lexeme) (u : Token) : Prop :=
  (∃ a more, Filler more ∧ goal a (ls ++ .token u :: more)) ∨ Open goal ls ∧ Full ls u

section

variable {A : α → List Lexeme → Prop} {B : β → List Lexeme → Prop} {ls ms : List Lexeme} {u : Token}

theorem Open.trans (h : Open A ls) (hx : ∀ a ls, A a ls → Open B ls) : Open B ls := by
  obtain ⟨a, more, hmore, ha⟩ := h
  obtain ⟨b, ns, hns, hb⟩ := hx a _ ha
  exact ⟨b, more ++ ns, filler_append.mpr ⟨hmore, hns⟩, by rwa [← List.append_assoc]⟩

theorem Offer.trans (h : Offer A ls u) (hx : ∀ a ls, A a ls → Open B ls) : Offer B ls u := by
  rcases h with ⟨a, more, hmore, ha⟩ | h
  · obtain ⟨b, ns, hns, hb⟩ := hx a _ ha
    exact .inl ⟨b, more ++ ns, filler_append.mpr ⟨hmore, hns⟩, by simpa using hb⟩
  · exact .inr ⟨h.1.trans hx, h.2⟩

theorem Open.of_append (h : Open (fun b ms => B b (ls ++ ms)) ms) : Open B (ls ++ ms) := by
  obtain ⟨b, more, hmore, hb⟩ := h
  exact ⟨b, more, hmore, by rwa [List.append_assoc]⟩

theorem Offer.of_append (h : Offer (fun b ms => B b (ls ++ ms)) ms u) : Offer B (ls ++ ms) u := by
  rcases h with ⟨b, more, hmore, hb⟩ | h
  · exact .inl ⟨b, more, hmore, by rwa [List.append_assoc]⟩
  · exact .inr ⟨h.1.of_append, h.2.append_left⟩

end

namespace Reader

variable {book : Phrasebook}

/-- A token that is left over from before the reader, or that the reader offers. -/
def Pending (goal : α → List Lexeme → Prop) (tried : List Token) (ls : List Lexeme) (u : Token) :
    Prop :=
  ls = [] ∧ u ∈ tried ∨ Offer goal ls u

/-- Every value of the reader has the shape, and every token it looks for in vain is an offer. -/
structure Offers (book : Phrasebook) (R : Reader α) (shape goal : α → List Lexeme → Prop) :
    Prop where
  ok : ∀ ⦃c a d⦄, R c = .ok a d → ∃ ls, shape a ls ∧ Reads book ls c.rest d.rest ∧
    ∀ u ∈ d.tried, Pending goal c.tried ls u
  unexpected : ∀ ⦃c expected rest s⦄, R c = .error ⟨.unexpected expected, rest⟩ s →
    ∃ ls mid, Reads book ls c.rest mid ∧ rest = skipBlank mid ∧
      ∀ form ∈ expected, ∃ u, book.form u = form ∧ Pending goal c.tried ls u
  endOfText : ∀ ⦃c rest s⦄, R c = .error ⟨.endOfText, rest⟩ s →
    ∃ ls mid, Reads book ls c.rest mid ∧ rest = skipBlank mid ∧ Open goal ls

variable {R : Reader α} {f : α → Reader β} {V A : α → List Lexeme → Prop}
  {W B : β → List Lexeme → Prop}

theorem Pending.trans {tried : List Token} {ls : List Lexeme} {u : Token}
    (h : Pending A tried ls u) (hx : ∀ a ls, A a ls → Open B ls) : Pending B tried ls u := by
  rcases h with h | h
  · exact .inl h
  · exact .inr (h.trans hx)

theorem Pending.append {c d : Cursor} {ls ms : List Lexeme} {u : Token}
    (hd : ∀ u ∈ d.tried, Pending A c.tried ls u) (hx : ∀ a ls, A a ls → Open B ls)
    (h : Pending (fun b ms => B b (ls ++ ms)) d.tried ms u) : Pending B c.tried (ls ++ ms) u := by
  rcases h with ⟨rfl, hu⟩ | h
  · rw [List.append_nil]
    exact (hd u hu).trans hx
  · exact .inr h.of_append

theorem Offers.bind (hR : Offers book R V A)
    (hf : ∀ a ls, V a ls →
      Offers book (f a) (fun b ms => W b (ls ++ ms)) fun b ms => B b (ls ++ ms))
    (hx : ∀ a ls, A a ls → Open B ls) : Offers book (R >>= f) W B where
  ok := by
    intro c b e h
    obtain ⟨a, d, ha, hb⟩ := bind_eq_ok.mp h
    obtain ⟨ls, hv, hl, hd⟩ := hR.ok ha
    obtain ⟨ms, hw, hm, he⟩ := (hf a ls hv).ok hb
    exact ⟨ls ++ ms, hw, hl.append hm, fun u hu => (he u hu).append hd hx⟩
  unexpected := by
    intro c expected rest s h
    -- Either the first reader fails, or it leaves to the second what it was still offering.
    rcases bind_eq_error.mp h with h | ⟨a, d, ha, h⟩
    · obtain ⟨ls, mid, hl, hrest, hp⟩ := hR.unexpected h
      refine ⟨ls, mid, hl, hrest, fun form hform => ?_⟩
      obtain ⟨u, hu, hp⟩ := hp form hform
      exact ⟨u, hu, hp.trans hx⟩
    · obtain ⟨ls, hv, hl, hd⟩ := hR.ok ha
      obtain ⟨ms, mid, hm, hrest, hp⟩ := (hf a ls hv).unexpected h
      refine ⟨ls ++ ms, mid, hl.append hm, hrest, fun form hform => ?_⟩
      obtain ⟨u, hu, hp⟩ := hp form hform
      exact ⟨u, hu, hp.append hd hx⟩
  endOfText := by
    intro c rest s h
    rcases bind_eq_error.mp h with h | ⟨a, d, ha, h⟩
    · obtain ⟨ls, mid, hl, hrest, ho⟩ := hR.endOfText h
      exact ⟨ls, mid, hl, hrest, ho.trans hx⟩
    · obtain ⟨ls, hv, hl, -⟩ := hR.ok ha
      obtain ⟨ms, mid, hm, hrest, ho⟩ := (hf a ls hv).endOfText h
      exact ⟨ls ++ ms, mid, hl.append hm, hrest, ho.of_append⟩

theorem Offers.mono (hR : Offers book R V A) {V' A' : α → List Lexeme → Prop}
    (hV : ∀ a ls, V a ls → V' a ls) (hA : ∀ a ls, A a ls → A' a ls) : Offers book R V' A' := by
  have hx : ∀ a ls, A a ls → Open A' ls := fun a ls h =>
    ⟨a, [], filler_nil, by simpa using hA a ls h⟩
  refine ⟨fun c a d h => ?_, fun c expected rest s h => ?_, fun c rest s h => ?_⟩
  · obtain ⟨ls, hv, hl, hp⟩ := hR.ok h
    exact ⟨ls, hV a ls hv, hl, fun u hu => (hp u hu).trans hx⟩
  · obtain ⟨ls, mid, hl, hrest, hp⟩ := hR.unexpected h
    refine ⟨ls, mid, hl, hrest, fun form hform => ?_⟩
    obtain ⟨u, hu, hp⟩ := hp form hform
    exact ⟨u, hu, hp.trans hx⟩
  · obtain ⟨ls, mid, hl, hrest, ho⟩ := hR.endOfText h
    exact ⟨ls, mid, hl, hrest, ho.trans hx⟩

/-- The goal of a reader that offers nothing. -/
def Nowhere (_ : α) (_ : List Lexeme) : Prop := False

theorem Nowhere.elim (a : α) (ls : List Lexeme) (h : Nowhere a ls) : Open B ls := False.elim h

theorem Offers.pure {a : α} (h : V a []) : Offers book (pure a) V A where
  ok := by
    intro c b d hb
    cases hb
    exact ⟨[], h, .nil, fun u hu => .inl ⟨rfl, hu⟩⟩
  unexpected := fun _ _ _ _ h => nomatch h
  endOfText := fun _ _ _ h => nomatch h

theorem Offers.fail {fault : Fault} {rest : List Char}
    (hu : ∀ expected, fault ≠ .unexpected expected) (he : fault ≠ .endOfText) :
    Offers book (fail fault rest) V A where
  ok := fun _ _ _ h => nomatch h
  unexpected := by
    intro c expected rest s h
    cases h
    exact absurd rfl (hu expected)
  endOfText := by
    intro c rest s h
    cases h
    exact absurd rfl he

theorem Offers.refuse : Offers book (Reader.unexpected book >>= throw) V A where
  ok := by
    intro c a d h
    obtain ⟨_, _, -, h⟩ := bind_eq_ok.mp h
    cases h
  unexpected := by
    intro c expected rest s h
    cases h
    refine ⟨[], c.rest, .nil, rfl, fun form hform => ?_⟩
    obtain ⟨u, hu, hform⟩ := Phrasebook.mem_forms.mp hform
    exact ⟨u, hform, .inl ⟨rfl, hu⟩⟩
  endOfText := fun _ _ _ h => nomatch h

/-- The end of a block is missing. A function that is declared instead is told apart. -/
def refuseBlock (book : Phrasebook) : Reader α := do
  let failure ← Reader.unexpected book
  match ← peek book id [.defineFunction] with
  | some _ => Reader.fail .nestedFunction (← ahead)
  | none => throw failure

theorem closeBlock_eq (closing : Token) :
    closeBlock book closing =
      accept book closing >>= fun found => if found then pure () else refuseBlock book :=
  rfl

theorem refuseBlock_eq_error (book : Phrasebook) (c : Cursor) :
    ∃ e s, refuseBlock (α := α) book c = .error e s ∧
      (e = ⟨.nestedFunction, c.ahead⟩ ∧
          (∃ after, book.after? .defineFunction c.ahead = some after) ∨
        e = ⟨.unexpected (book.forms c.tried), c.ahead⟩) := by
  have hpeek : peek book id [.defineFunction] c =
      .ok ((book.first c.ahead id [.defineFunction]).2.map (·.1))
        ⟨c.rest, c.tried ++ (book.first c.ahead id [.defineFunction]).1⟩ := rfl
  rw [refuseBlock, bind_of_ok (show Reader.unexpected book c = .ok _ c from rfl), bind_of_ok hpeek]
  cases hf : (book.first c.ahead id [.defineFunction]).2 with
  | some found =>
    obtain ⟨hm, ha⟩ := Phrasebook.mem_of_first_eq_some hf
    exact ⟨_, _, rfl, .inl ⟨rfl, found.2, by rwa [List.mem_singleton.mp hm] at ha⟩⟩
  | none => exact ⟨_, _, rfl, .inr rfl⟩

theorem Offers.refuseBlock : Offers book (Reader.refuseBlock book) V A where
  ok := by
    intro c a d h
    obtain ⟨e, s, he, -⟩ := refuseBlock_eq_error (α := α) book c
    rw [he] at h
    cases h
  unexpected := by
    intro c expected rest s h
    obtain ⟨e, s, he, hf⟩ := refuseBlock_eq_error (α := α) book c
    rw [he] at h
    cases h
    rcases hf with ⟨hf, -⟩ | hf
    · cases hf
    · cases hf
      refine ⟨[], c.rest, .nil, rfl, fun form hform => ?_⟩
      obtain ⟨u, hu, hform⟩ := Phrasebook.mem_forms.mp hform
      exact ⟨u, hform, .inl ⟨rfl, hu⟩⟩
  endOfText := by
    intro c rest s h
    obtain ⟨e, s, he, hf⟩ := refuseBlock_eq_error (α := α) book c
    rw [he] at h
    cases h
    rcases hf with ⟨hf, -⟩ | hf <;> cases hf

theorem offers_get : Offers book (get : Reader Cursor) (fun _ ls => ls = []) Nowhere where
  ok := by
    intro c a d h
    cases h
    exact ⟨[], rfl, .nil, fun u hu => .inl ⟨rfl, hu⟩⟩
  unexpected := fun _ _ _ _ h => nomatch h
  endOfText := fun _ _ _ h => nomatch h

theorem offers_ahead : Offers book ahead (fun _ ls => ls = []) Nowhere :=
  offers_get.bind (fun _ _ hls => .pure (by simpa using hls)) Nowhere.elim

theorem offers_take? {token : α → Token} {values : List α} :
    Offers book (take? book token values) (Choice token values) fun found ls =>
      ∃ value ∈ values, found = some value ∧ ls = [.token (token value)] where
  ok := by
    intro c a d h
    rcases take?_cases book token values c with ⟨value, rest, hm, ha, ht⟩ | ⟨-, ht⟩
    · rw [ht] at h
      cases h
      exact ⟨_, ⟨hm, rfl⟩, .single (.token ha), by simp⟩
    · rw [ht] at h
      cases h
      refine ⟨[], rfl, .nil, fun u hu => ?_⟩
      rcases List.mem_append.mp hu with hu | hu
      · exact .inl ⟨rfl, hu⟩
      · obtain ⟨value, hm, rfl⟩ := List.mem_map.mp hu
        exact .inr (.inl ⟨some value, [], filler_nil, value, hm, rfl, rfl⟩)
  unexpected := fun _ _ _ _ h => absurd h take?_ne_error
  endOfText := fun _ _ _ h => absurd h take?_ne_error

theorem offers_take {token : α → Token} {values : List α} :
    Offers book (take book token values)
      (fun value ls => value ∈ values ∧ ls = [.token (token value)])
      fun value ls => value ∈ values ∧ ls = [.token (token value)] := by
  unfold take
  refine offers_take?.bind (fun found ls hls => ?_) ?_
  · cases found with
    | none => exact .refuse
    | some value => exact .pure (by simpa [Choice] using hls)
  · rintro _ _ ⟨value, hm, rfl, rfl⟩
    exact ⟨value, [], filler_nil, hm, rfl⟩

theorem offers_accept {t : Token} :
    Offers book (accept book t) (fun found ls => ls = if found then [.token t] else [])
      fun found ls => found = true ∧ ls = [.token t] := by
  unfold accept
  refine offers_take?.bind (fun found ls hls => .pure ?_) ?_
  · cases found with
    | none => simpa [Choice] using hls
    | some u =>
      obtain ⟨hu, rfl⟩ := hls
      simp [List.mem_singleton.mp hu]
  · rintro _ _ ⟨u, hu, rfl, rfl⟩
    exact ⟨true, [], filler_nil, rfl, by simp [List.mem_singleton.mp hu]⟩

theorem offers_expect {t : Token} :
    Offers book (expect book t) (fun _ ls => ls = [.token t]) fun _ ls => ls = [.token t] := by
  unfold expect
  refine offers_take.bind (fun u ls hls => .pure ?_) ?_
  · obtain ⟨hu, rfl⟩ := hls
    simp [List.mem_singleton.mp hu]
  · rintro u _ ⟨hu, rfl⟩
    exact ⟨(), [], filler_nil, by simp [List.mem_singleton.mp hu]⟩

theorem offers_name :
    Offers book (name book) (fun n ls => ls = [.word n])
      fun n ls => n = "x" ∧ ls = [.word "x"] where
  ok := by
    intro c n d h
    obtain ⟨hne, hr, rfl, rfl⟩ := name_eq_ok h
    exact ⟨_, rfl, .single (.word hne hr), by simp⟩
  unexpected := by
    intro c expected rest s h
    obtain ⟨hf, -⟩ := name_eq_error h
    simp at hf
  endOfText := by
    intro c rest s h
    exact ⟨[], c.rest, .nil, (name_eq_error h).2, "x", [.word "x"], by simp, rfl, rfl⟩

end Reader

end Wordy
