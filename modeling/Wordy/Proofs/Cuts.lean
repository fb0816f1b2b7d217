import Mathlib
import Wordy.Proofs.ParsedForms
import Wordy.Proofs.Partings
import Wordy.Proofs.Spellings

/-! One reader on a text and on the part of it before a cut. As long as the lexemes end before the
cut both read the same. Then the reader of the part comes to the end, where it stops or misses
something, unless a lexeme of the whole text reaches over the cut. -/

namespace Wordy

open Text Phrasebook Reader

/-- The text behind a cut. It begins with a blank, so that no word is cut in two. -/
structure Cut where
  right : List Char
  break_right : Break right

namespace Cut

variable (cut : Cut) {α β : Type}

/-- The first cursor stands in the part before the cut where the second one stands in the text, or
at its end if that one stands behind the cut. -/
def Level (c c' : Cursor) : Prop := c'.ahead = skipBlank (c.ahead ++ cut.right)

/-- The lexeme begins with what is left before the cut and is not whole there. Of a longer
comparison the shorter one may be left. -/
structure Tears (pre : List Char) (l : Lexeme) : Prop where
  ne_nil : pre ≠ []
  whole : ∃ rest, l.Next standard (pre ++ cut.right) rest
  part : ∀ rest, ¬ l.Next standard pre rest
  not_comparison : ∀ t u, l = .token u → (t, u) ∈ Token.comparisons →
    standard.after? t pre ≠ some []

/-- The second token says of what type a name is, which the first one announces. -/
def Typing (t u : Token) : Prop :=
  t = .toBe ∧ u ∈ [Token.mutableWord, .numberType, .stringType, .booleanType, .equalTo,
      .initializedTo] ∨
    t = .asWord ∧ u ∈ [Token.mutableWord, .numberType, .stringType, .booleanType]

/-- The cut is within a lexeme, or between a name and its type. -/
inductive Misplaced (text : List Char) (ls : List Lexeme) : Prop
  | torn {before after : List Lexeme} {l : Lexeme} {mid pre : List Char}
      (hls : ls = before ++ l :: after) (hr : Reads standard before text mid)
      (hmid : skipBlank mid = pre ++ cut.right) (h : cut.Tears pre l)
  | untyped {before after : List Lexeme} {t u : Token} {mid : List Char}
      (hls : ls = before ++ .token t :: .token u :: after)
      (hr : Reads standard (before ++ [.token t]) text mid)
      (hmid : skipBlank mid = skipBlank cut.right) (h : Typing t u)

/-- The reader of the part has come to its end, or misses something there. -/
def Ended : EStateM.Result Failure Cursor α → Prop
  | .ok _ d => d.ahead = []
  | .error e _ => e.rest = [] ∨ e.fault = .stalled

/-- What the reader of the part comes to, where that of the text has read the lexemes. -/
inductive Outcome (text : List Char) (ls : List Lexeme) (a : α) (d' : Cursor) :
    EStateM.Result Failure Cursor α → Prop
  | level {d : Cursor} (h : cut.Level d d') : Outcome text ls a d' (.ok a d)
  | ended {x : EStateM.Result Failure Cursor α} (h : Ended x) : Outcome text ls a d' x
  | misplaced {x : EStateM.Result Failure Cursor α} (h : cut.Misplaced text ls) :
      Outcome text ls a d' x

def Meets (shape : α → List Lexeme → Prop) (c' : Cursor) (a : α) (d' : Cursor)
    (x : EStateM.Result Failure Cursor α) : Prop :=
  ∃ ls, shape a ls ∧ Reads standard ls c'.rest d'.rest ∧ cut.Outcome c'.rest ls a d' x

/-- What the second reader reads of the text has the shape, and the first one keeps up with it in
the part before the cut. -/
structure Keeps (R R' : Reader α) (shape : α → List Lexeme → Prop) : Prop where
  yields : Yields standard R' shape
  outcome : ∀ ⦃c c' a d'⦄, cut.Level c c' → R' c' = .ok a d' → cut.Meets shape c' a d' (R c)

/-- The first reader keeps up with the second one where it does not start at the end of the part. -/
structure Inside (R R' : Reader α) (shape : α → List Lexeme → Prop) : Prop where
  yields : Yields standard R' shape
  outcome : ∀ ⦃c c' a d'⦄, cut.Level c c' → c.ahead ≠ [] → R' c' = .ok a d' →
    cut.Meets shape c' a d' (R c)

/-- The first reader keeps up with the second one behind the lexeme. -/
structure After (l : Lexeme) (R R' : Reader α) (shape : α → List Lexeme → Prop) : Prop where
  yields : Yields standard R' fun a ls => shape a (l :: ls)
  outcome : ∀ ⦃c' mid mid' a d'⦄, l.Next standard c'.rest mid'.rest → cut.Level mid mid' →
    R' mid' = .ok a d' → cut.Meets shape c' a d' (R mid)

/-- At the end of the text the reader goes no further. -/
def Ends (R : Reader α) : Prop := ∀ ⦃c : Cursor⦄, c.ahead = [] → Ended (R c)

/-- At the end of the text the reader misses something. -/
def Starves (R : Reader α) : Prop :=
  ∀ ⦃c : Cursor⦄, c.ahead = [] → ∃ e s, R c = .error e s ∧ e.rest = []

/-- The reader fails everywhere. -/
def Fails (R : Reader α) : Prop := ∀ ⦃c a d⦄, R c ≠ .ok a d

variable {cut} {R R' : Reader α} {f f' : α → Reader β} {V : α → List Lexeme → Prop}
  {W : β → List Lexeme → Prop} {c c' d d' : Cursor}

namespace Level

theorem ahead_eq (h : cut.Level c c') (hne : c.ahead ≠ []) : c'.ahead = c.ahead ++ cut.right := by
  have hskip : skipBlank (c.ahead ++ []) = c.ahead ++ [] := by
    rw [List.append_nil]
    exact skipBlank_skipBlank c.rest
  exact h.trans (skipBlank_shift hskip hne)

theorem ahead_of_nil (h : cut.Level c c') (hnil : c.ahead = []) :
    c'.ahead = skipBlank cut.right := by
  rw [h, hnil, List.nil_append]

theorem shift (h : cut.Level c c') {l : Lexeme} {rest : List Char}
    (hn : l.Next standard c.rest rest) (hne : .token .endOfInput ≠ l) :
    ∃ rest', l.Next standard c'.rest rest' ∧
      ∀ tried tried', cut.Level ⟨rest, tried⟩ ⟨rest', tried'⟩ := by
  have hnil (s : List Char) : s = s ++ [] := (List.append_nil s).symm
  obtain ⟨rest', hn', hrest'⟩ :=
    hn.shift hne cut.break_right (hnil c.ahead) h (hnil (skipBlank rest))
  exact ⟨rest', hn', fun _ _ => hrest'⟩

theorem misplaced (h : cut.Level c c') (hahead : c.ahead ≠ []) {l : Lexeme} {rest' : List Char}
    (hn : l.Next standard c'.rest rest') (hpart : ∀ rest, ¬ l.Next standard c.rest rest)
    (hshort : ∀ t u, l = .token u → (t, u) ∈ Token.comparisons →
      standard.after? t c.ahead ≠ some []) (after : List Lexeme) :
    cut.Misplaced c'.rest (l :: after) := by
  have hc' := h.ahead_eq hahead
  have hskip : skipBlank c.rest = skipBlank c.ahead := (skipBlank_skipBlank c.rest).symm
  have hls : l :: after = [] ++ l :: after := rfl
  refine .torn hls .nil hc' ⟨hahead, ⟨rest', hn.of_skipBlank_eq ?_⟩, fun rest hr => ?_, hshort⟩
  · rw [← hc', Cursor.ahead, skipBlank_skipBlank]
  · exact hpart rest (hr.of_skipBlank_eq hskip.symm)

end Level

namespace Misplaced

variable {text mid : List Char} {ls ms : List Lexeme}

theorem append_left (h : cut.Misplaced mid ms) (hr : Reads standard ls text mid) :
    cut.Misplaced text (ls ++ ms) := by
  cases h with
  | torn hls hb hmid ht => exact .torn (by rw [hls, List.append_assoc]) (hr.append hb) hmid ht
  | untyped hls hb hmid ht =>
    refine .untyped (by rw [hls, List.append_assoc]) ?_ hmid ht
    rw [List.append_assoc]
    exact hr.append hb

theorem append_right (h : cut.Misplaced text ls) (ms : List Lexeme) :
    cut.Misplaced text (ls ++ ms) := by
  cases h with
  | torn hls hb hmid ht => exact .torn (by rw [hls, List.append_assoc]; rfl) hb hmid ht
  | untyped hls hb hmid ht => exact .untyped (by rw [hls, List.append_assoc]; rfl) hb hmid ht

end Misplaced

/-! Readers at the end of the text. -/

theorem Ends.bind (hR : Ends R) (hf : ∀ a, Ends (f a)) : Ends (R >>= f) := by
  intro c hc
  have h := hR hc
  cases hx : R c with
  | ok a d =>
    rw [hx] at h
    rw [bind_of_ok hx]
    exact hf a h
  | error e s =>
    rw [hx] at h
    rw [bind_eq_error.mpr (.inl hx)]
    exact h

theorem Ends.pure {a : α} : Ends (pure a : Reader α) := fun _ hc => hc

theorem Starves.bind (hR : Starves R) : Starves (R >>= f) := by
  intro c hc
  obtain ⟨e, s, he, hrest⟩ := hR hc
  exact ⟨e, s, bind_eq_error.mpr (.inl he), hrest⟩

theorem Starves.ends (hR : Starves R) : Ends R := by
  intro c hc
  obtain ⟨e, s, he, hrest⟩ := hR hc
  rw [he]
  exact .inl hrest

theorem Starves.ahead {f : List Char → Reader β} (hf : ∀ start, Starves (f start)) :
    Starves (ahead >>= f) :=
  fun c hc => hf c.ahead hc

theorem Ends.get {f : Cursor → Reader β} (hf : ∀ c, Ends (f c)) : Ends (get >>= f) :=
  fun c hc => hf c hc

/-! Readers that fail. -/

theorem Fails.ahead {f : List Char → Reader β} (hf : ∀ s, Fails (f s)) : Fails (ahead >>= f) :=
  fun c _ _ h => hf c.ahead h

theorem Fails.fail {fault : Fault} {rest : List Char} : Fails (Reader.fail fault rest : Reader α) :=
  nofun

theorem Fails.yields (h : Fails R) : Yields standard R V := fun _ _ _ ha => (h ha).elim

namespace Meets

variable {a : α} {x : EStateM.Result Failure Cursor α}

theorem ended (hR : Yields standard R' V) (ha : R' c' = .ok a d') (he : Ended x) :
    cut.Meets V c' a d' x := by
  obtain ⟨ls, hv, hl⟩ := hR ha
  exact ⟨ls, hv, hl, .ended he⟩

theorem cons {l : Lexeme} {mid : Cursor} (hn : l.Next standard c'.rest mid.rest)
    (h : cut.Meets (fun a ls => V a (l :: ls)) mid a d' x) : cut.Meets V c' a d' x := by
  obtain ⟨ls, hv, hl, ho⟩ := h
  refine ⟨l :: ls, hv, .cons hn hl, ?_⟩
  generalize x = y at ho ⊢
  cases ho with
  | level hd => exact .level hd
  | ended he => exact .ended he
  | misplaced hm => exact .misplaced (hm.append_left (.single hn))

theorem torn {l : Lexeme} {mid : Cursor} (hn : l.Next standard c'.rest mid.rest)
    (hR : Yields standard R' fun a ls => V a (l :: ls)) (ha : R' mid = .ok a d')
    (hm : ∀ after, cut.Misplaced c'.rest (l :: after)) : cut.Meets V c' a d' x := by
  obtain ⟨ls, hv, hl⟩ := hR ha
  exact ⟨l :: ls, hv, .cons hn hl, .misplaced (hm ls)⟩

end Meets

/-! Readers in step. -/

theorem Keeps.inside (h : cut.Keeps R R' V) : cut.Inside R R' V :=
  ⟨h.yields, fun _ _ _ _ hc _ ha => h.outcome hc ha⟩

theorem Inside.keeps (h : cut.Inside R R' V) (hends : Ends R) : cut.Keeps R R' V where
  yields := h.yields
  outcome := by
    intro c c' a d' hc ha
    by_cases hahead : c.ahead = []
    · exact .ended h.yields ha (hends hahead)
    · exact h.outcome hc hahead ha

theorem Keeps.after {l : Lexeme} (h : cut.Keeps R R' fun a ls => V a (l :: ls)) :
    cut.After l R R' V :=
  ⟨h.yields, fun _ _ _ _ _ hn hmid ha => .cons hn (h.outcome hmid ha)⟩

/-- Where the part ends between a name and its type, the cut is misplaced. -/
theorem Inside.after_typing {t : Token}
    (h : cut.Inside R R' fun a ls =>
      V a (.token t :: ls) ∧ ∃ u after, ls = .token u :: after ∧ Typing t u) :
    cut.After (.token t) R R' V where
  yields := h.yields.mono fun _ _ h => h.1
  outcome := by
    intro c' mid mid' a d' hn hmid ha
    by_cases hahead : mid.ahead = []
    · obtain ⟨ls, ⟨hv, u, after, rfl, htyping⟩, hl⟩ := h.yields ha
      refine ⟨_, hv, .cons hn hl, .misplaced ?_⟩
      have hls : Lexeme.token t :: .token u :: after = [] ++ .token t :: .token u :: after := rfl
      exact .untyped hls (.single hn) (hmid.ahead_of_nil hahead) htyping
    · obtain ⟨ls, ⟨hv, -⟩, hl, ho⟩ := h.outcome hmid hahead ha
      exact .cons hn ⟨ls, hv, hl, ho⟩

theorem Inside.of_fails (h : Fails R') : cut.Inside R R' V :=
  ⟨h.yields, fun _ _ _ _ _ _ ha => (h ha).elim⟩

namespace Keeps

theorem bind (hR : cut.Keeps R R' V)
    (hf : ∀ a ls, V a ls → cut.Keeps (f a) (f' a) fun b ms => W b (ls ++ ms))
    (hends : ∀ a, Ends (f a)) : cut.Keeps (R >>= f) (R' >>= f') W where
  yields := hR.yields.bind fun a ls hv => (hf a ls hv).yields
  outcome := by
    intro c c' b e' hc h
    obtain ⟨a, d', ha, hb⟩ := bind_eq_ok.mp h
    obtain ⟨ls, hv, hl, ho⟩ := hR.outcome hc ha
    obtain ⟨ms, hw, hm⟩ := (hf a ls hv).yields hb
    generalize hx : R c = x at ho
    cases ho with
    | @level d hd =>
      rw [bind_of_ok hx]
      obtain ⟨ms, hw, hm, ho⟩ := (hf a ls hv).outcome hd hb
      refine ⟨ls ++ ms, hw, hl.append hm, ?_⟩
      generalize f a d = y at ho ⊢
      cases ho with
      | level he => exact .level he
      | ended he => exact .ended he
      | misplaced hm => exact .misplaced (hm.append_left hl)
    | ended he =>
      refine ⟨ls ++ ms, hw, hl.append hm, .ended ?_⟩
      -- The part is over before the second reader, which has to stay at its end.
      cases x with
      | ok a₀ d =>
        rw [bind_of_ok hx]
        exact hends a₀ he
      | error e s =>
        rw [bind_eq_error.mpr (.inl hx)]
        exact he
    | misplaced hm' => exact ⟨ls ++ ms, hw, hl.append hm, .misplaced (hm'.append_right ms)⟩

theorem pure {a : α} (h : V a []) : cut.Keeps (pure a) (pure a) V where
  yields := .pure h
  outcome := by
    intro c c' b d' hc hb
    cases hb
    exact ⟨[], h, .nil, .level hc⟩

theorem of_fails (h : Fails R') : cut.Keeps R R' V :=
  ⟨h.yields, fun _ _ _ _ _ ha => (h ha).elim⟩

theorem mono (hR : cut.Keeps R R' V) {V' : α → List Lexeme → Prop}
    (h : ∀ a ls, V a ls → V' a ls) : cut.Keeps R R' V' where
  yields := hR.yields.mono h
  outcome := by
    intro c c' a d' hc ha
    obtain ⟨ls, hv, hl, ho⟩ := hR.outcome hc ha
    exact ⟨ls, h a ls hv, hl, ho⟩

theorem ahead {f f' : List Char → Reader β} (hf : ∀ s s', cut.Keeps (f s) (f' s') W) :
    cut.Keeps (Reader.ahead >>= f) (Reader.ahead >>= f') W where
  yields := fun c' _ _ h => (hf [] c'.ahead).yields h
  outcome := fun c c' _ _ hc h => (hf c.ahead c'.ahead).outcome hc h

theorem get {f f' : Cursor → Reader β} (hf : ∀ s s', cut.Keeps (f s) (f' s') W) :
    cut.Keeps (get >>= f) (get >>= f') W where
  yields := fun c' _ _ h => (hf c' c').yields h
  outcome := fun c c' _ _ hc h => (hf c c').outcome hc h

/-- A limit that is too low for the part is no matter. -/
theorem stalled_left (h : Yields standard R' V) :
    cut.Keeps (do Reader.fail .stalled (← Reader.ahead)) R' V :=
  ⟨h, fun _ _ _ _ _ ha => .ended h ha (.inr rfl)⟩

theorem stalled_right : cut.Keeps R (do Reader.fail .stalled (← Reader.ahead)) V :=
  .of_fails (.ahead fun _ => .fail)

/-- Of two readers with limits, the one may have a higher limit than the other. -/
theorem limits {S S' : Nat → Reader α} (hzero : S 0 = do Reader.fail .stalled (← Reader.ahead))
    (hzero' : S' 0 = do Reader.fail .stalled (← Reader.ahead))
    (hsucc : ∀ n m, cut.Keeps (S n) (S' m) V → cut.Keeps (S (n + 1)) (S' (m + 1)) V) (n m : Nat) :
    cut.Keeps (S n) (S' m) V := by
  -- Equal limits first: a part with no limit left still needs what the reader of the text yields.
  have hdiagonal (m : Nat) : cut.Keeps (S m) (S' m) V := by
    induction m with
    | zero => exact hzero' ▸ .stalled_right
    | succ m ih => exact hsucc m m ih
  induction n generalizing m with
  | zero => exact hzero ▸ .stalled_left (hdiagonal m).yields
  | succ n ih =>
    cases m with
    | zero => exact hzero' ▸ .stalled_right
    | succ m => exact hsucc n m (ih m)

end Keeps

end Cut

end Wordy
