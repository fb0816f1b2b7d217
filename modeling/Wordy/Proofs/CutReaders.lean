import Mathlib
import Wordy.Proofs.Cuts

/-! The readers of tokens, names and quoted texts, and of lists of parts, on a text and on the
part of it before a cut. Each takes what is read after it, as the part can end in the midst of
that only. -/

namespace Wordy

open Text Phrasebook Reader

namespace Cut

variable {cut : Cut} {α β : Type} {R R' : Reader α} {f f' : α → Reader β}
  {V : α → List Lexeme → Prop} {W : β → List Lexeme → Prop} {c c' d d' : Cursor}

/-! Readers at the end of the text. -/

section

variable {γ : Type} {token : γ → Token} {values : List γ}

theorem take?_of_nil (hv : ∀ v ∈ values, token v ∈ Token.spelled) (hc : c.ahead = []) :
    take? standard token values c = .ok none ⟨c.rest, c.tried ++ values.map token⟩ :=
  take?_eq_of_none fun v hm => by rw [hc, standard_after?_nil (hv v hm)]

theorem Ends.take? {g : Option γ → Reader β} (hv : ∀ v ∈ values, token v ∈ Token.spelled)
    (hnone : Ends (g none)) : Ends (take? standard token values >>= g) := by
  intro c hc
  rw [bind_of_ok (take?_of_nil hv hc)]
  exact hnone hc

theorem Starves.take? {g : Option γ → Reader β} (hv : ∀ v ∈ values, token v ∈ Token.spelled)
    (hnone : Starves (g none)) : Starves (take? standard token values >>= g) := by
  intro c hc
  rw [bind_of_ok (take?_of_nil hv hc)]
  exact hnone hc

theorem Starves.refuse : Starves (Reader.unexpected standard >>= throw : Reader α) :=
  fun _ hc => ⟨_, _, rfl, hc⟩

theorem Starves.take (hv : ∀ v ∈ values, token v ∈ Token.spelled) :
    Starves (Reader.take standard token values) := by
  unfold Reader.take
  exact .take? hv .refuse

end

theorem Ends.accept {t : Token} {g : Bool → Reader β} (ht : t ∈ Token.spelled)
    (hfalse : Ends (g false)) : Ends (accept standard t >>= g) := by
  rw [accept_bind]
  exact .take? (by simpa using ht) hfalse

theorem Starves.accept {t : Token} {g : Bool → Reader β} (ht : t ∈ Token.spelled)
    (hfalse : Starves (g false)) : Starves (Reader.accept standard t >>= g) := by
  rw [accept_bind]
  exact .take? (by simpa using ht) hfalse

theorem Starves.expect {t : Token} (ht : t ∈ Token.spelled) : Starves (expect standard t) :=
  (Starves.take (by simpa using ht)).bind

theorem Starves.name : Starves (name standard) := by
  intro c hc
  refine ⟨⟨.endOfText, c.ahead⟩, c, ?_, hc⟩
  rw [Reader.name, bind_of_ok (show Reader.ahead c = .ok c.ahead c from rfl), if_pos hc]
  rfl

theorem Starves.quotation? {g : Option String → Reader β} (hnone : Starves (g none)) :
    Starves (quotation? >>= g) := by
  intro c hc
  have hq : quoted? c.ahead = none := by
    rw [hc]
    rfl
  rw [bind_of_ok (quotation?_eq_of_none hq)]
  exact hnone hc

theorem Starves.refuseBlock : Starves (Reader.refuseBlock standard : Reader α) := by
  intro c hc
  obtain ⟨e, s, he, hf⟩ := refuseBlock_eq_error (α := α) standard c
  refine ⟨e, s, he, ?_⟩
  rcases hf with ⟨rfl, -⟩ | rfl <;> exact hc

theorem Starves.closeBlock {closing : Token} (ht : closing ∈ Token.spelled) :
    Starves (Wordy.closeBlock standard closing) := by
  rw [closeBlock_eq]
  exact .accept ht .refuseBlock

theorem Fails.refuse {book : Phrasebook} : Fails (Reader.unexpected book >>= throw : Reader α) :=
  nofun

theorem Fails.refuseBlock {book : Phrasebook} : Fails (Reader.refuseBlock book : Reader α) := by
  intro c a d h
  obtain ⟨e, s, he, -⟩ := refuseBlock_eq_error (α := α) book c
  rw [he] at h
  cases h

/-! Readers in step. -/

section

variable {γ : Type} {token : γ → Token} {values : List γ} {g g' : Option γ → Reader β}

/-- Of two tokens that a text can start with, one begins the other and is looked for after it. No
longer comparison is looked for alone. -/
structure Orderly (token : γ → Token) (values : List γ) : Prop where
  pairwise : values.Pairwise fun u v =>
    (token u).Apart (token v) ∨ (token v, token u) ∈ Token.comparisons
  shorter : ∀ p ∈ Token.comparisons, p.2 ∈ values.map token → p.1 ∈ values.map token

/-- No text can start with two of the tokens, and none is a longer comparison. -/
structure Distinct (token : γ → Token) (values : List γ) : Prop where
  apart : values.Pairwise fun u v => (token u).Apart (token v)
  plain : ∀ p ∈ Token.comparisons, p.2 ∉ values.map token

theorem Distinct.orderly (h : Distinct token values) : Orderly token values where
  pairwise := h.apart.imp .inl
  shorter := fun p hp hm => absurd hm (h.plain p hp)

/-- Where another token than the one that is found starts the text, it begins a longer
comparison. -/
theorem Orderly.eq_or_shorter (h : Orderly token values) {text rest rest' : List Char} {u v : γ}
    (hu : (standard.first text token values).2 = some (u, rest)) (hv : v ∈ values)
    (hafter : standard.after? (token v) text = some rest') :
    v = u ∨ (token v, token u) ∈ Token.comparisons := by
  have hpairwise := h.pairwise
  clear h
  induction values with
  | nil => cases hv
  | cons w values ih =>
    obtain ⟨hw, hvalues⟩ := List.pairwise_cons.mp hpairwise
    rw [first] at hu
    split at hu
    · next hfound =>
      cases hu
      rcases List.mem_cons.mp hv with rfl | hv
      · exact .inl rfl
      · rcases hw v hv with hapart | hshort
        · rw [standard_after?_eq_none hapart hfound] at hafter
          cases hafter
        · exact .inr hshort
    · next hnone =>
      rcases List.mem_cons.mp hv with rfl | hv
      · rw [hnone] at hafter
        cases hafter
      · exact ih hu hv hvalues

theorem Level.torn_token (hc : cut.Level c c') (hahead : c.ahead ≠ []) {t : Token}
    {rest' : List Char} (h : standard.after? t c'.ahead = some rest')
    (hpart : standard.after? t c.ahead = none)
    (hshort : ∀ u, (u, t) ∈ Token.comparisons → standard.after? u c.ahead ≠ some [])
    (after : List Lexeme) : cut.Misplaced c'.rest (.token t :: after) := by
  refine hc.misplaced hahead (.token h) (fun rest hn => ?_) (fun u v hv hm => ?_) after
  · rw [Lexeme.Next.token_iff] at hn
    exact Option.some_ne_none rest (hn.symm.trans hpart)
  · obtain rfl := Lexeme.token.inj hv
    exact hshort u hm

theorem Level.next_of_first (hc : cut.Level c c') (hahead : c.ahead ≠ []) {u : γ} {rest : List Char}
    (hl : (standard.first c.ahead token values).2 = some (u, rest)) :
    ∃ rest', (Lexeme.token (token u)).Next standard c'.rest rest' ∧
      cut.Level ⟨rest, []⟩ ⟨rest', []⟩ := by
  obtain ⟨-, hafter⟩ := mem_of_first_eq_some hl
  have hspelled : .token .endOfInput ≠ Lexeme.token (token u) := by
    intro ht
    rw [← Lexeme.token.inj ht] at hafter
    exact hahead (after?_endOfInput.mp hafter).1
  obtain ⟨rest', hn, hlevel⟩ := hc.shift (.token hafter) hspelled
  exact ⟨rest', hn, hlevel [] []⟩

/-- What only the text goes on with is torn. Of a longer comparison the part may find the shorter
one, if that does not end it. -/
theorem Orderly.misplaced (h : Orderly token values) (hc : cut.Level c c') (hahead : c.ahead ≠ [])
    {v : γ} {rest' : List Char} (hv : v ∈ values)
    (hafter' : standard.after? (token v) c'.ahead = some rest')
    (hl : ∀ u rest, (standard.first c.ahead token values).2 = some (u, rest) →
      (token u, token v) ∈ Token.comparisons ∧ rest ≠ []) (after : List Lexeme) :
    cut.Misplaced c'.rest (.token (token v) :: after) := by
  have hfound {u : γ} {rest : List Char} (hu : u ∈ values)
      (hafter : standard.after? (token u) c.ahead = some rest) :
      ∃ w rest, (standard.first c.ahead token values).2 = some (w, rest) ∧
        (u = w ∨ (token u, token w) ∈ Token.comparisons) := by
    cases hw : (standard.first c.ahead token values).2 with
    | some found => exact ⟨found.1, found.2, rfl, h.eq_or_shorter hw hu hafter⟩
    | none =>
      rw [after?_eq_none_of_first hw u hu] at hafter
      cases hafter
  -- The part does not have the token itself, and no shorter comparison ends it.
  refine hc.torn_token hahead hafter' (Option.eq_none_iff_forall_ne_some.mpr fun rest hafter => ?_)
    (fun t ht hend => ?_) after
  · obtain ⟨w, r, hw, rfl | hback⟩ := hfound hv hafter
    · exact Token.comparisons_irrefl (hl _ r hw).1
    · exact Token.comparisons_asymm (hl w r hw).1 hback
  · obtain ⟨u, hu, rfl⟩ := List.mem_map.mp (h.shorter _ ht (List.mem_map_of_mem hv))
    obtain ⟨w, r, hw, rfl | hback⟩ := hfound hu hend
    · rw [(mem_of_first_eq_some hw).2] at hend
      exact (hl _ r hw).2 (Option.some.inj hend)
    · rw [Token.comparisons_unique (hl w r hw).1 ht] at hback
      exact Token.comparisons_irrefl hback

/-- What the text goes on with, the part has as well, or it is torn. Only a shorter comparison that
ends the part is read there for the longer one. -/
theorem Level.meets_found (hc : cut.Level c c') (hahead : c.ahead ≠ []) (h : Orderly token values)
    {v : γ} {rest' : List Char} (hr : (standard.first c'.ahead token values).2 = some (v, rest'))
    (hsome : cut.After (.token (token v)) (g (some v)) (g' (some v)) W)
    (hshort : ∀ u ∈ values, (token u, token v) ∈ Token.comparisons →
      Ends (g (some u)) ∨ Fails (g' (some v)))
    {b : β} {e' : Cursor} (hb : g' (some v) ⟨rest', []⟩ = .ok b e') :
    cut.Meets W c' b e' ((Reader.take? standard token values >>= g) c) := by
  obtain ⟨hv, hafter'⟩ := mem_of_first_eq_some hr
  let mid : Cursor := ⟨rest', []⟩
  have hn : (Lexeme.token (token v)).Next standard c'.rest mid.rest := .token hafter'
  cases hl : (standard.first c.ahead token values).2 with
  | some found =>
    obtain ⟨u, rest⟩ := found
    obtain ⟨rest'', hn', hlevel⟩ := hc.next_of_first hahead hl
    have hu := (mem_of_first_eq_some hl).1
    rw [bind_of_ok (take?_eq_of_some hl)]
    rcases h.eq_or_shorter hr hu (Lexeme.Next.token_iff.mp hn') with rfl | hpair
    · obtain rfl := hn.unique hn'
      exact hsome.outcome hn hlevel hb
    · -- The part has a shorter comparison: it stops there if that is its end, and else it is torn.
      by_cases hrest : rest = []
      · subst hrest
        rcases hshort u hu hpair with hends | hfails
        · exact .cons hn (.ended hsome.yields hb (hends rfl))
        · exact (hfails hb).elim
      · refine .torn hn hsome.yields hb (h.misplaced hc hahead hv hafter' fun w r hw => ?_)
        rw [hl] at hw
        cases hw
        exact ⟨hpair, hrest⟩
  | none =>
    refine .torn hn hsome.yields hb (h.misplaced hc hahead hv hafter' fun w r hw => ?_)
    rw [hl] at hw
    cases hw

theorem Level.take?_of_none (hc : cut.Level c c') (hahead : c.ahead ≠ [])
    (hr : (standard.first c'.ahead token values).2 = none) :
    Reader.take? standard token values c = .ok none ⟨c.rest, c.tried ++ values.map token⟩ := by
  cases hl : (standard.first c.ahead token values).2 with
  | some found =>
    obtain ⟨rest', hn, -⟩ := hc.next_of_first hahead hl
    have hfound := Lexeme.Next.token_iff.mp hn
    rw [show skipBlank c'.rest = c'.ahead from rfl,
      after?_eq_none_of_first hr _ (mem_of_first_eq_some hl).1] at hfound
    cases hfound
  | none => exact take?_eq_of_none (after?_eq_none_of_first hl)

theorem Inside.take?_of (h : Orderly token values)
    (hsome : ∀ v ∈ values, cut.After (.token (token v)) (g (some v)) (g' (some v)) W)
    (hshort : ∀ u ∈ values, ∀ v ∈ values, (token u, token v) ∈ Token.comparisons →
      Ends (g (some u)) ∨ Fails (g' (some v)))
    (hnone : cut.Inside (g none) (g' none) W) :
    cut.Inside (Reader.take? standard token values >>= g)
      (Reader.take? standard token values >>= g') W where
  yields := by
    refine yields_take?.bind fun found ls hls => ?_
    cases found with
    | none =>
      obtain rfl : ls = [] := hls
      exact hnone.yields
    | some v =>
      obtain ⟨hv, rfl⟩ := hls
      exact (hsome v hv).yields
  outcome := by
    intro c c' b e' hc hahead hb
    cases hr : (standard.first c'.ahead token values).2 with
    | some found =>
      have hv := (mem_of_first_eq_some hr).1
      rw [bind_of_ok (take?_eq_of_some hr)] at hb
      exact hc.meets_found hahead h hr (hsome _ hv) (fun u hu => hshort u hu _ hv) hb
    | none =>
      rw [bind_of_ok (take?_eq_of_none (after?_eq_none_of_first hr))] at hb
      rw [bind_of_ok (hc.take?_of_none hahead hr)]
      let mid : Cursor := ⟨c.rest, c.tried ++ values.map token⟩
      let mid' : Cursor := ⟨c'.rest, c'.tried ++ values.map token⟩
      have hmid : cut.Level mid mid' := hc
      have hmeets : cut.Meets W mid' b e' (g none mid) := hnone.outcome hmid hahead hb
      exact hmeets

theorem Inside.take? (h : Distinct token values)
    (hsome : ∀ v ∈ values, cut.Keeps (g (some v)) (g' (some v))
      fun b ms => W b (.token (token v) :: ms))
    (hnone : cut.Inside (g none) (g' none) W) :
    cut.Inside (Reader.take? standard token values >>= g)
      (Reader.take? standard token values >>= g') W :=
  .take?_of h.orderly (fun v hv => (hsome v hv).after)
    (fun _ _ _ hv hpair => absurd (List.mem_map_of_mem hv) (h.plain _ hpair)) hnone

theorem Keeps.take? (h : Distinct token values) (hspelled : ∀ v ∈ values, token v ∈ Token.spelled)
    (hsome : ∀ v ∈ values, cut.Keeps (g (some v)) (g' (some v))
      fun b ms => W b (.token (token v) :: ms))
    (hnone : cut.Inside (g none) (g' none) W) (hends : Ends (g none)) :
    cut.Keeps (Reader.take? standard token values >>= g) (Reader.take? standard token values >>= g')
      W :=
  (Inside.take? h hsome hnone).keeps (.take? hspelled hends)

end

section

variable {γ : Type} {token : γ → Token} {values : List γ} {g g' : γ → Reader β}

theorem take_bind (g : γ → Reader β) :
    Reader.take standard token values >>= g = Reader.take? standard token values >>= fun found =>
      match found with
      | some v => g v
      | none => Reader.unexpected standard >>= throw := by
  unfold Reader.take
  rw [bind_assoc]
  congr
  funext found
  cases found with
  | some v => exact pure_bind v g
  | none => rfl

theorem Inside.take (h : Distinct token values)
    (hg : ∀ v ∈ values, cut.Keeps (g v) (g' v) fun b ms => W b (.token (token v) :: ms)) :
    cut.Inside (Reader.take standard token values >>= g) (Reader.take standard token values >>= g')
      W := by
  rw [take_bind, take_bind]
  exact .take? h hg (.of_fails .refuse)

theorem Keeps.take (h : Distinct token values) (hspelled : ∀ v ∈ values, token v ∈ Token.spelled)
    (hg : ∀ v ∈ values, cut.Keeps (g v) (g' v) fun b ms => W b (.token (token v) :: ms)) :
    cut.Keeps (Reader.take standard token values >>= g) (Reader.take standard token values >>= g')
      W :=
  (Inside.take h hg).keeps (Starves.take hspelled).bind.ends

end

section

variable {t : Token} {g g' : Bool → Reader β} {h h' : Unit → Reader β}

structure Plain (t : Token) : Prop where
  spelled : t ∈ Token.spelled
  ne_comparison : ∀ p ∈ Token.comparisons, p.2 ≠ t

instance (t : Token) : Decidable (Plain t) :=
  decidable_of_iff (t ∈ Token.spelled ∧ ∀ p ∈ Token.comparisons, p.2 ≠ t)
    ⟨fun h => ⟨h.1, h.2⟩, fun h => ⟨h.1, h.2⟩⟩

theorem Plain.distinct (ht : Plain t) : Distinct id [t] where
  apart := List.pairwise_singleton ..
  plain := fun p hp hm => ht.ne_comparison p hp (by simpa using hm)

theorem Inside.accept (ht : Plain t)
    (htrue : cut.Keeps (g true) (g' true) fun b ms => W b (.token t :: ms))
    (hfalse : cut.Inside (g false) (g' false) W) :
    cut.Inside (Reader.accept standard t >>= g) (Reader.accept standard t >>= g') W := by
  rw [accept_bind, accept_bind]
  refine .take? ht.distinct (fun u hu => ?_) hfalse
  rw [List.mem_singleton.mp hu]
  exact htrue

theorem Keeps.accept (ht : Plain t)
    (htrue : cut.Keeps (g true) (g' true) fun b ms => W b (.token t :: ms))
    (hfalse : cut.Inside (g false) (g' false) W) (hends : Ends (g false)) :
    cut.Keeps (Reader.accept standard t >>= g) (Reader.accept standard t >>= g') W :=
  (Inside.accept ht htrue hfalse).keeps (.accept ht.spelled hends)

theorem Keeps.expect (ht : Plain t) (hg : cut.After (.token t) (h ()) (h' ()) W) :
    cut.Keeps (Reader.expect standard t >>= h) (Reader.expect standard t >>= h') W := by
  refine Inside.keeps ?_ (Starves.expect ht.spelled).bind.ends
  unfold Reader.expect
  rw [bind_assoc, bind_assoc, take_bind, take_bind]
  refine .take?_of ht.distinct.orderly (fun u hu => ?_) (fun u hu v hv hpair => ?_)
    (.of_fails .refuse)
  · rw [List.mem_singleton.mp hu]
    exact hg
  · exact absurd (List.mem_singleton.mp hv) (ht.ne_comparison _ hpair)

end

section

variable {g g' : String → Reader β} {q q' : Option String → Reader β}

/-- A word that ends before the cut ends there in the text as well. -/
theorem Level.name (hc : cut.Level c c') (hahead : c.ahead ≠ []) {n : String}
    (hn : Reader.name standard c' = .ok n d') :
    ∃ d, Reader.name standard c = .ok n d ∧ cut.Level d d' := by
  obtain ⟨-, hres, rfl, rfl⟩ := name_eq_ok hn
  have hend : afterWord (c.ahead ++ []) = afterWord c.ahead ++ [] := by
    rw [List.append_nil, List.append_nil]
  obtain ⟨hword, hafter⟩ := word_shift cut.break_right hend
  rw [← hc.ahead_eq hahead, List.append_nil] at hword
  rw [← hc.ahead_eq hahead] at hafter
  refine ⟨⟨afterWord c.ahead, []⟩, ?_, ?_⟩
  · rw [hword] at hres ⊢
    exact name_eq hahead hres
  · change skipBlank (afterWord c'.ahead) = skipBlank (skipBlank (afterWord c.ahead) ++ cut.right)
    rw [skipBlank_afterWord, skipBlank_afterWord, hafter]

theorem Keeps.name (hg : ∀ n, cut.Keeps (g n) (g' n) fun b ms => W b (.word n :: ms)) :
    cut.Keeps (Reader.name standard >>= g) (Reader.name standard >>= g') W := by
  refine Inside.keeps ⟨?_, ?_⟩ Starves.name.bind.ends
  · refine yields_name.bind fun n ls hls => ?_
    subst hls
    exact (hg n).yields
  · intro c c' b e' hc hahead hb
    obtain ⟨n, d', hn', hb⟩ := bind_eq_ok.mp hb
    obtain ⟨d, hn, hd⟩ := hc.name hahead hn'
    obtain ⟨hne, hres, rfl, rfl⟩ := name_eq_ok hn'
    rw [bind_of_ok hn]
    exact .cons (.word hne hres) ((hg _).outcome hd hb)

/-- A quoted text that is not closed before the cut is torn. -/
theorem Inside.quotation? (hsome : ∀ contents, cut.Keeps (q (some contents)) (q' (some contents))
      fun b ms => W b (.quotation contents :: ms))
    (hnone : cut.Inside (q none) (q' none) W) :
    cut.Inside (Reader.quotation? >>= q) (Reader.quotation? >>= q') W where
  yields := by
    refine yields_quotation?.bind fun found ls hls => ?_
    subst hls
    cases found with
    | some contents => exact (hsome contents).yields
    | none => exact hnone.yields
  outcome := by
    intro c c' b e' hc hahead hb
    cases hr : quoted? c'.ahead with
    | some quoted =>
      obtain ⟨contents', after'⟩ := quoted
      let mid : Cursor := ⟨skipBlank after', []⟩
      have hn : (Lexeme.quotation (.ofList contents')).Next standard c'.rest mid.rest :=
        .quotation hr
      rw [bind_of_ok (quotation?_eq_of_some hr)] at hb
      cases hl : quoted? c.ahead with
      | some quoted =>
        obtain ⟨contents, after⟩ := quoted
        obtain ⟨rest', hn', hlevel⟩ := hc.shift (.quotation hl) nofun
        obtain ⟨contents'', after'', hr', hcontents, rfl⟩ := Lexeme.Next.quotation_iff.mp hn'
        rw [show skipBlank c'.rest = c'.ahead from rfl, hr] at hr'
        cases hr'
        rw [bind_of_ok (quotation?_eq_of_some hl), hcontents]
        exact .cons hn ((hsome _).outcome (hlevel [] []) hb)
      | none =>
        -- The closing quote is behind the cut.
        refine .torn hn (hsome _).yields hb (hc.misplaced hahead hn (fun rest hn' => ?_) nofun)
        obtain ⟨_, _, hl', -, -⟩ := Lexeme.Next.quotation_iff.mp hn'
        rw [show skipBlank c.rest = c.ahead from rfl, hl] at hl'
        cases hl'
    | none =>
      rw [bind_of_ok (quotation?_eq_of_none hr)] at hb
      cases hl : quoted? c.ahead with
      | some quoted =>
        obtain ⟨rest', hn', -⟩ := hc.shift (.quotation hl) nofun
        obtain ⟨_, _, hr', -, -⟩ := Lexeme.Next.quotation_iff.mp hn'
        rw [show skipBlank c'.rest = c'.ahead from rfl, hr] at hr'
        cases hr'
      | none =>
        rw [bind_of_ok (quotation?_eq_of_none hl)]
        exact hnone.outcome hc hahead hb

end

theorem Keeps.closeBlock {closing : Token} (ht : Plain closing) :
    cut.Keeps (Wordy.closeBlock standard closing) (Wordy.closeBlock standard closing)
      fun _ ls => ls = [.token closing] := by
  rw [closeBlock_eq]
  exact .accept ht (.pure rfl) (.of_fails .refuseBlock) Starves.refuseBlock.ends

section

variable {t : Token} {part part' : Reader α}

theorem Keeps.optional (ht : Plain t) (hp : cut.Keeps part part' fun a ms => V a (.token t :: ms)) :
    cut.Keeps (Reader.optional (Reader.accept standard t) part)
      (Reader.optional (Reader.accept standard t) part') (Perhaps V) := by
  unfold Reader.optional
  refine .accept ht (hp.bind (fun a ls hls => .pure ?_) fun _ => .pure)
    (Keeps.pure .none).inside .pure
  rw [List.append_nil]
  exact .some hls

theorem Ends.optional (hspelled : t ∈ Token.spelled) :
    Ends (Reader.optional (Reader.accept standard t) part) :=
  .accept hspelled .pure

theorem Ends.others (hspelled : t ∈ Token.spelled) (limit : Nat) :
    Ends (Reader.others (Reader.accept standard t) part limit) := by
  cases limit with
  | zero => exact fun _ _ => .inr rfl
  | succ limit => exact .accept hspelled .pure

theorem Keeps.others (ht : Plain t) (hp : cut.Keeps part part' V) (n m : Nat) :
    cut.Keeps (Reader.others (Reader.accept standard t) part n)
      (Reader.others (Reader.accept standard t) part' m)
      fun as ls => as = [] ∧ ls = [] ∨ More t V as ls := by
  refine .limits rfl rfl (fun n m h => ?_) n m
  refine .accept ht (hp.bind (fun a ls hls => h.bind (fun as ms hms => .pure ?_)
    fun _ => .pure) fun _ => .bind (.others ht.spelled n) fun _ => .pure)
    (Keeps.pure (.inl ⟨rfl, rfl⟩)).inside .pure
  rcases hms with ⟨rfl, rfl⟩ | hms
  · exact .inr ⟨ls, by simp, .one hls⟩
  · exact .inr ⟨ls ++ ms, by simp, hms.cons hls⟩

theorem Keeps.separated (ht : Plain t) (hp : cut.Keeps part part' V) :
    cut.Keeps (Reader.separated (Reader.accept standard t) part)
      (Reader.separated (Reader.accept standard t) part') (Separated t V) := by
  unfold Reader.separated
  refine hp.bind (fun a ls hls => .get fun _ _ => (Keeps.others ht hp _ _).bind
    (fun as ms hms => .pure ?_) fun _ => .pure) fun _ => .get fun _ =>
    .bind (.others ht.spelled _) fun _ => .pure
  rcases hms with ⟨rfl, rfl⟩ | hms
  · simpa using Separated.one hls
  · simpa using hms.cons hls

theorem Keeps.listed (ht : Plain t) (hp : cut.Keeps part part' V) :
    cut.Keeps
      (Reader.optional (Reader.accept standard t)
        (Reader.separated (Reader.accept standard .comma) part))
      (Reader.optional (Reader.accept standard t)
        (Reader.separated (Reader.accept standard .comma) part'))
      fun found ls => Listed t V (found.getD []) ls := by
  have hlist : cut.Keeps (Reader.separated (Reader.accept standard .comma) part)
      (Reader.separated (Reader.accept standard .comma) part')
      fun as ms => Listed t V as (.token t :: ms) :=
    (Keeps.separated (by decide) hp).mono fun _ _ => .some
  refine (Keeps.optional ht hlist).mono fun found ls h => ?_
  cases h with
  | none => exact .none
  | some h => exact h

end

end Cut

end Wordy
