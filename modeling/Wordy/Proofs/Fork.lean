import Mathlib
import Wordy.Proofs.Partings

/-! One reader on two texts that part at a point. Up to the point it does the same in both, unless a
token that it misses in the left text reaches over the point in the right one. Then the left reader
has gone astray: it can still go past the point or fail, but not with a report on the point that
leaves that token out. -/

namespace Wordy

open Text Phrasebook Reader

/-- How two texts go on after what they share. A word that ends at the point ends in the right text
too. -/
structure Fork where
  left : List Char
  right : List Char
  break_right : Break right

namespace Fork

variable (fork : Fork) {α β : Type}

/-- The cursors stand at one place of the shared text, or at the point. -/
def Parted (c c' : Cursor) : Prop :=
  ∃ pre, c.ahead = pre ++ fork.left ∧ c'.ahead = skipBlank (pre ++ fork.right)

def Beyond (c : Cursor) : Prop := c.ahead.length < fork.left.length

/-- One of the tokens would come next in the right text. -/
def Strayed (tokens : List Token) (c : Cursor) : Prop :=
  fork.Beyond c ∨ ∃ pre, c.ahead = pre ++ fork.left ∧
    ∃ t ∈ tokens, standard.after? t (skipBlank (pre ++ fork.right)) ≠ none

/-- A report on the point, all of whose tokens are missing from the right text as well. -/
def Telling (e : Failure) : Prop :=
  ∃ expected, e = ⟨.unexpected expected, fork.left⟩ ∧
    ∀ t, standard.form t ∈ expected → standard.after? t (skipBlank fork.right) = none

/-- The left reader is astray, with no more than the given tokens tried. -/
def Lost (after : List Token) : EStateM.Result Failure Cursor α → Prop
  | .ok _ d => d.tried ⊆ after ∧ fork.Strayed d.tried d
  | .error e _ => ¬ fork.Telling e

/-- Astray by what was tried or by a silent token, the reader stays astray. -/
def Loses (silent before : List Token) (R : Reader α) (after : List Token) : Prop :=
  ∀ ⦃c⦄, c.tried ⊆ before → fork.Strayed (silent ++ c.tried) c → fork.Lost after (R c)

/-- What the two readers come to: they stay together, or the left one is lost, or the right one
fails. -/
inductive Outcome (after : List Token) :
    EStateM.Result Failure Cursor α → EStateM.Result Failure Cursor α → Prop
  | together {a : α} {d d' : Cursor} (ht : d.tried ⊆ after) (h : fork.Parted d d') :
      Outcome after (.ok a d) (.ok a d')
  | lost {x y : EStateM.Result Failure Cursor α} (h : fork.Lost after x) : Outcome after x y
  | fails {x : EStateM.Result Failure Cursor α} {e : Failure} {s : Cursor} :
      Outcome after x (.error e s)

/-- The readers differ in their limits at most. With no more than the given tokens tried before,
there are no more than the others tried after. -/
structure Follows (before : List Token) (R R' : Reader α) (after : List Token) : Prop where
  loses : fork.Loses [] before R after
  outcome : ∀ ⦃c c'⦄, c.tried ⊆ before → fork.Parted c c' → fork.Outcome after (R c) (R' c')

variable {fork} {P Q S T : List Token} {R R' : Reader α} {f f' : α → Reader β}

theorem Beyond.of_suffix {c d : Cursor} (h : fork.Beyond c) (hs : d.ahead <:+ c.ahead) :
    fork.Beyond d :=
  hs.length_le.trans_lt h

theorem Strayed.mono {c : Cursor} (h : fork.Strayed P c) (hs : P ⊆ Q) : fork.Strayed Q c := by
  rcases h with h | ⟨pre, hpre, t, ht, hafter⟩
  · exact .inl h
  · exact .inr ⟨pre, hpre, t, hs ht, hafter⟩

theorem beyond_or_append {c d : Cursor} {pre : List Char} (hpre : c.ahead = pre ++ fork.left)
    (hs : d.ahead <:+ c.ahead) : fork.Beyond d ∨ ∃ mid, d.ahead = mid ++ fork.left := by
  by_cases hl : d.ahead.length < fork.left.length
  · exact .inl hl
  · exact .inr (exists_append_of_suffix (hpre ▸ hs) (Nat.le_of_not_lt hl))

theorem Lost.bind {x : EStateM.Result Failure Cursor α} {c : Cursor} (hx : R c = x)
    (h : fork.Lost S x) (hf : ∀ a, fork.Loses [] S (f a) Q) : fork.Lost Q ((R >>= f) c) := by
  cases hR : R c with
  | ok a d =>
    rw [bind_of_ok hR]
    subst hx
    rw [hR] at h
    exact hf a h.1 h.2
  | error e s =>
    have he : (R >>= f) c = .error e s := bind_eq_error.mpr (.inl hR)
    rw [he]
    subst hx
    rw [hR] at h
    exact h

theorem Loses.bind (hR : fork.Loses T P R S) (hf : ∀ a, fork.Loses [] S (f a) Q) :
    fork.Loses T P (R >>= f) Q :=
  fun _ hc hs => .bind rfl (hR hc hs) hf

theorem Follows.bind (hR : fork.Follows P R R' S)
    (hf : ∀ a, fork.Follows S (f a) (f' a) Q) : fork.Follows P (R >>= f) (R' >>= f') Q where
  loses := hR.loses.bind fun a => (hf a).loses
  outcome := by
    intro c c' hc hp
    have ho := hR.outcome hc hp
    generalize hx : R c = x at ho
    generalize hy : R' c' = y at ho
    cases ho with
    | together ht h =>
      rw [bind_of_ok hx, bind_of_ok hy]
      exact (hf _).outcome ht h
    | lost h => exact .lost (h.bind hx fun a => (hf a).loses)
    | fails =>
      rw [bind_eq_error.mpr (.inl hy)]
      exact .fails

theorem Lost.mono {x : EStateM.Result Failure Cursor α} (h : fork.Lost P x) (hQ : P ⊆ Q) :
    fork.Lost Q x := by
  cases x with
  | ok a d => exact ⟨List.Subset.trans h.1 hQ, h.2⟩
  | error e s => exact h

theorem Loses.mono (hR : fork.Loses T P R Q) (hP : S ⊆ P) {U : List Token} (hQ : Q ⊆ U) :
    fork.Loses T S R U :=
  fun _ hc hs => (hR (List.Subset.trans hc hP) hs).mono hQ

theorem Follows.mono (hR : fork.Follows P R R' Q) (hP : S ⊆ P) {U : List Token} (hQ : Q ⊆ U) :
    fork.Follows S R R' U where
  loses := hR.loses.mono hP hQ
  outcome := by
    intro c c' hc hp
    have ho := hR.outcome (List.Subset.trans hc hP) hp
    generalize R c = x at ho
    generalize R' c' = y at ho
    cases ho with
    | together ht h => exact .together (List.Subset.trans ht hQ) h
    | lost h => exact .lost (h.mono hQ)
    | fails => exact .fails

theorem Loses.pure {a : α} (h : P ⊆ Q) : fork.Loses [] P (pure a) Q :=
  fun _ hc hs => ⟨List.Subset.trans hc h, hs⟩

theorem Follows.pure {a : α} (h : P ⊆ Q) : fork.Follows P (pure a) (pure a) Q where
  loses := .pure h
  outcome := fun _ _ hc hp => .together (List.Subset.trans hc h) hp

theorem Follows.get {f f' : Cursor → Reader β} (hf : ∀ c c', fork.Follows P (f c) (f' c') Q) :
    fork.Follows P (get >>= f) (get >>= f') Q where
  loses := fun c hc hs => (hf c c).loses hc hs
  outcome := fun c c' hc hp => (hf c c').outcome hc hp

theorem Loses.ahead {f : List Char → Reader β} (hf : ∀ s, fork.Loses T P (f s) Q) :
    fork.Loses T P (Reader.ahead >>= f) Q :=
  fun c hc hs => hf c.ahead hc hs

theorem Follows.ahead {f f' : List Char → Reader β}
    (hf : ∀ s s', fork.Follows P (f s) (f' s') Q) :
    fork.Follows P (ahead >>= f) (ahead >>= f') Q where
  loses := fun c hc hs => (hf c.ahead c.ahead).loses hc hs
  outcome := fun c c' hc hp => (hf c.ahead c'.ahead).outcome hc hp

theorem not_telling_of_fault {e : Failure} (h : ∀ expected, e.fault ≠ .unexpected expected) :
    ¬ fork.Telling e := by
  rintro ⟨expected, rfl, -⟩
  exact h expected rfl

theorem Loses.fail {fault : Fault} (hu : ∀ expected, fault ≠ .unexpected expected)
    {rest : List Char} : fork.Loses T P (fail fault rest : Reader α) Q :=
  fun _ _ _ => not_telling_of_fault hu

theorem Follows.fail {fault : Fault} (hu : ∀ expected, fault ≠ .unexpected expected)
    {rest : List Char} {R' : Reader α} : fork.Follows P (fail fault rest) R' Q where
  loses := .fail hu
  outcome := fun _ _ _ _ => .lost (not_telling_of_fault hu)

/-- A limit that is too low is one of the left reader's ways to fail without a report. -/
theorem Follows.stalled_left :
    fork.Follows P (do Reader.fail .stalled (← Reader.ahead)) R' Q where
  loses := .ahead fun _ => .fail (by nofun)
  outcome := fun _ _ _ _ => .lost (not_telling_of_fault (by nofun))

/-- A limit that is too low is one of the right reader's ways to fail. -/
theorem Follows.stalled_right (h : fork.Loses [] P R Q) :
    fork.Follows P R (do Reader.fail .stalled (← Reader.ahead)) Q where
  loses := h
  outcome := fun _ _ _ _ => .fails

/-- A report made astray is on another place, or names the token that leads astray. -/
theorem not_telling {c : Cursor} (h : fork.Strayed c.tried c) :
    ¬ fork.Telling ⟨.unexpected (standard.forms c.tried), c.ahead⟩ := by
  rintro ⟨expected, he, hall⟩
  obtain ⟨hforms, hahead⟩ := Failure.mk.inj he
  rcases h with h | ⟨pre, hpre, t, ht, hafter⟩
  · exact absurd (congrArg List.length hahead) (Nat.ne_of_lt h)
  · obtain rfl : pre = [] := by simpa [hpre] using hahead
    refine hafter (hall t ?_)
    rw [← Fault.unexpected.inj hforms]
    exact mem_forms.mpr ⟨t, ht, rfl⟩

theorem Follows.refuse :
    fork.Follows P (Reader.unexpected standard >>= throw : Reader α)
      (Reader.unexpected standard >>= throw) Q where
  loses := fun _ _ hs => not_telling hs
  outcome := fun _ _ _ _ => .fails

theorem Follows.refuseBlock :
    fork.Follows P (Reader.refuseBlock standard : Reader α) (Reader.refuseBlock standard) Q where
  loses := by
    intro c _ hs
    obtain ⟨e, s, he, hf⟩ := refuseBlock_eq_error (α := α) standard c
    rw [he]
    rcases hf with ⟨rfl, -⟩ | rfl
    · rintro ⟨expected, he, -⟩
      cases he
    · exact not_telling hs
  outcome := by
    intro c c' _ _
    obtain ⟨e, s, he, -⟩ := refuseBlock_eq_error (α := α) standard c'
    rw [he]
    exact .fails

/-- A token that comes next in the left text leads beyond the point, or comes next in the right text
as well. -/
theorem beyond_or_after? {c : Cursor} {t : Token} {pre rest : List Char} (ts : List Token)
    (ht : t ∈ Token.spelled) (hpre : c.ahead = pre ++ fork.left)
    (h : standard.after? t c.ahead = some rest) :
    fork.Beyond ⟨rest, ts⟩ ∨ ∃ mid rest', skipBlank rest = mid ++ fork.left ∧
      standard.after? t (skipBlank (pre ++ fork.right)) = some rest' ∧
        skipBlank rest' = skipBlank (mid ++ fork.right) := by
  have hnext : (Lexeme.token t).Next standard c.rest rest := .token h
  rcases beyond_or_append (d := ⟨rest, ts⟩) hpre (skipBlank_suffix_skipBlank hnext.suffix) with
    hb | ⟨mid, hmid⟩
  · exact .inl hb
  · have hne : Lexeme.token .endOfInput ≠ .token t := by
      intro he
      exact Token.mem_spelled.mp ht (Lexeme.token.inj he).symm
    obtain ⟨rest', hn, hrest⟩ := hnext.shift hne fork.break_right hpre rfl hmid
    exact .inr ⟨mid, rest', hmid, Lexeme.Next.token_iff.mp hn, hrest⟩

/-- Astray by tokens apart from it, a token leads beyond the point. -/
theorem Strayed.beyond {c : Cursor} {t : Token} {tokens ts : List Token} {rest : List Char}
    (hs : fork.Strayed tokens c) (ht : t ∈ Token.spelled) (hapart : ∀ u ∈ tokens, t.Apart u)
    (h : standard.after? t c.ahead = some rest) : fork.Beyond ⟨rest, ts⟩ := by
  rcases hs with hs | ⟨pre, hpre, u, hu, hafter⟩
  · have hnext : (Lexeme.token t).Next standard c.rest rest := .token h
    exact hs.of_suffix (skipBlank_suffix_skipBlank hnext.suffix)
  · rcases beyond_or_after? ts ht hpre h with hb | ⟨-, rest', -, h', -⟩
    · exact hb
    · exact absurd (standard_after?_eq_none (hapart u hu) h') hafter

/-- The values have phrases that are apart from the tokens looked for before. -/
def Clear (token : α → Token) (values : List α) (before : List Token) : Prop :=
  ∀ v ∈ values, token v ∈ Token.spelled ∧ ∀ u ∈ before, (token v).Apart u

section

variable {token : α → Token} {values : List α} {g g' : Option α → Reader β}

theorem Loses.take? (hv : Clear token values (T ++ P))
    (hsome : ∀ v ∈ values, fork.Loses [] [] (g (some v)) Q)
    (hnone : fork.Loses T (P ++ values.map token) (g none) Q) :
    fork.Loses T P (take? standard token values >>= g) Q := by
  intro c hc hs
  rcases take?_cases standard token values c with ⟨v, rest, hm, ha, ht⟩ | ⟨-, ht⟩
  · rw [bind_of_ok ht]
    refine hsome v hm (List.Subset.refl _) (.inl (hs.beyond (hv v hm).1 (fun u hu => ?_) ha))
    refine (hv v hm).2 u ?_
    rcases List.mem_append.mp hu with hu | hu
    · exact List.mem_append_left P hu
    · exact List.mem_append_right T (hc hu)
  · rw [bind_of_ok ht]
    refine hnone ?_ (hs.mono ?_)
    · simpa using List.subset_append_of_subset_left _ hc
    · simp only [← List.append_assoc]
      exact List.subset_append_left _ _

/-- Where both texts go on with the value's token, the right reader finds it first, or the left one
is lost. -/
theorem Follows.take?_of (hv : Clear token values P)
    (hrival : ∀ v ∈ values, ∀ ⦃s rest rest' mid⦄, standard.after? (token v) s = some rest' →
      skipBlank rest = mid ++ fork.left → skipBlank rest' = skipBlank (mid ++ fork.right) →
      (standard.first s token values).2 = some (v, rest') ∨
        fork.Lost Q (g (some v) ⟨rest, []⟩))
    (hsome : ∀ v ∈ values, fork.Follows [] (g (some v)) (g' (some v)) Q)
    (hnone : fork.Follows (P ++ values.map token) (g none) (g' none) Q) :
    fork.Follows P (take? standard token values >>= g) (take? standard token values >>= g') Q where
  loses := .take? hv (fun v hm => (hsome v hm).loses) hnone.loses
  outcome := by
    rintro c c' hc ⟨pre, hpre, hpre'⟩
    rcases take?_cases standard token values c with ⟨v, rest, hm, ha, ht⟩ | ⟨-, ht⟩
    · rw [bind_of_ok ht]
      rcases beyond_or_after? [] (hv v hm).1 hpre ha with hb | ⟨mid, rest', hmid, h', hrest'⟩
      · exact .lost ((hsome v hm).loses (List.Subset.refl _) (.inl hb))
      · rw [← hpre'] at h'
        rcases hrival v hm h' hmid hrest' with hfirst | hlost
        · rw [bind_of_ok (take?_eq_of_some hfirst)]
          exact (hsome v hm).outcome (List.Subset.refl _) ⟨mid, hmid, hrest'⟩
        · exact .lost hlost
    · rw [bind_of_ok ht]
      -- What only the right text goes on with has led the left reader astray.
      have hmissed : c.tried ++ values.map token ⊆ P ++ values.map token := by
        simpa using List.subset_append_of_subset_left _ hc
      rcases take?_cases standard token values c' with ⟨u, rest, hm, ha, -⟩ | ⟨-, ht'⟩
      · have hu : token u ∈ [] ++ (c.tried ++ values.map token) :=
          List.mem_append_right c.tried (List.mem_map_of_mem hm)
        refine .lost (hnone.loses hmissed (.inr ⟨pre, hpre, token u, hu, ?_⟩))
        rw [← hpre', ha]
        exact Option.some_ne_none rest
      · rw [bind_of_ok ht']
        exact hnone.outcome hmissed ⟨pre, hpre, hpre'⟩

theorem Follows.take? [DecidableEq α] (hv : Clear token values P)
    (hapart : ∀ v ∈ values, ∀ u ∈ values, u ≠ v → (token v).Apart (token u))
    (hsome : ∀ v ∈ values, fork.Follows [] (g (some v)) (g' (some v)) Q)
    (hnone : fork.Follows (P ++ values.map token) (g none) (g' none) Q) :
    fork.Follows P (take? standard token values >>= g) (take? standard token values >>= g') Q := by
  refine .take?_of hv (fun v hm s rest rest' mid h _ _ => .inl ?_) hsome hnone
  exact first_of_unique hm (fun u hu hne => standard_after?_eq_none (hapart v hm u hu hne) h) h

end

section

variable {t : Token} {g g' : Bool → Reader β}

theorem Loses.accept (ht : t ∈ Token.spelled) (hapart : ∀ u ∈ T ++ P, t.Apart u)
    (htrue : fork.Loses [] [] (g true) Q) (hfalse : fork.Loses T (P ++ [t]) (g false) Q) :
    fork.Loses T P (accept standard t >>= g) Q := by
  rw [accept_bind]
  refine .take? (fun v hm => ?_) (fun _ _ => htrue) hfalse
  obtain rfl := List.mem_singleton.mp hm
  exact ⟨ht, hapart⟩

theorem Follows.accept (ht : t ∈ Token.spelled) (hapart : ∀ u ∈ P, t.Apart u)
    (htrue : fork.Follows [] (g true) (g' true) Q)
    (hfalse : fork.Follows (P ++ [t]) (g false) (g' false) Q) :
    fork.Follows P (accept standard t >>= g) (accept standard t >>= g') Q := by
  rw [accept_bind, accept_bind]
  refine .take? (fun v hm => ?_) (by simp) (fun _ _ => htrue) hfalse
  obtain rfl := List.mem_singleton.mp hm
  exact ⟨ht, hapart⟩

end

theorem Follows.take [DecidableEq α] {token : α → Token} {values : List α}
    (hv : Clear token values P)
    (hapart : ∀ v ∈ values, ∀ u ∈ values, u ≠ v → (token v).Apart (token u)) :
    fork.Follows P (take standard token values) (take standard token values) [] := by
  unfold Reader.take
  exact .take? hv hapart (fun _ _ => .pure (List.Subset.refl _)) .refuse

theorem Follows.expect {t : Token} (ht : t ∈ Token.spelled) (hapart : ∀ u ∈ P, t.Apart u) :
    fork.Follows P (expect standard t) (expect standard t) [] := by
  refine (Follows.take (fun v hm => ?_) (by simp)).bind fun _ => .pure (List.Subset.refl _)
  obtain rfl := List.mem_singleton.mp hm
  exact ⟨ht, hapart⟩

/-- The tokens are spelled by one word each. -/
def Short (tokens : List Token) : Prop := ∀ t ∈ tokens, t ∈ Token.spelled ∧ t.words.length = 1

/-- A token of one word that comes next in the right text reserves the word in the left one. -/
theorem Loses.name (h : Short (T ++ P)) : fork.Loses T P (name standard) [] := by
  intro c hc hs
  cases hx : Reader.name standard c with
  | error e s =>
    refine not_telling_of_fault fun expected he => ?_
    have hf := (name_eq_error hx).1
    simp [he] at hf
  | ok w d =>
    obtain ⟨hne, hr, -, rfl⟩ := name_eq_ok hx
    have hsuffix : skipBlank (afterWord c.ahead) <:+ c.ahead :=
      (skipBlank_suffix _).trans (afterWord_suffix _)
    refine ⟨List.Subset.refl _, .inl ?_⟩
    rcases hs with hs | ⟨pre, hpre, t, ht, hafter⟩
    · exact hs.of_suffix hsuffix
    · rcases beyond_or_append (d := ⟨afterWord c.ahead, []⟩) hpre hsuffix with hb | ⟨mid, hmid⟩
      · exact hb
      · -- The word ends before the point, and so is the first word of the right text as well.
        have hahead : skipBlank (pre ++ fork.left) = pre ++ fork.left := by
          rw [← hpre, Cursor.ahead, skipBlank_skipBlank]
        have hword : word (pre ++ fork.left) ≠ [] := hpre ▸ word_skipBlank_ne_nil hne
        have hafterWord : afterWord (pre ++ fork.left) = mid ++ fork.left := by
          rw [← hpre, ← hmid]
          exact (skipBlank_afterWord _).symm
        obtain ⟨hw, -⟩ := word_shift fork.break_right hafterWord
        rw [skipBlank_shift hahead (ne_nil_of_afterWord hword hafterWord)] at hafter
        obtain ⟨rest, hrest⟩ := Option.ne_none_iff_exists'.mp hafter
        have ht' : t ∈ T ++ P := by
          rcases List.mem_append.mp ht with ht | ht
          · exact List.mem_append_left P ht
          · exact List.mem_append_right T (hc ht)
        have hres := isReserved_of_after? (h t ht').1 (h t ht').2 hrest
        rw [hw, ← hpre, hr] at hres
        cases hres

theorem Follows.of_lexeme {R : Reader α} (hl : fork.Loses [] P R [])
    (herror : ∀ c e s, R c = .error e s → ∀ expected, e.fault ≠ .unexpected expected)
    (hok : ∀ c a d, R c = .ok a d → d.tried = [] ∧ ∃ l, .token .endOfInput ≠ l ∧
      l.Next standard c.rest d.rest ∧ ∀ n, Admits n R a [l] []) : fork.Follows P R R [] where
  loses := hl
  outcome := by
    rintro c c' hc ⟨pre, hpre, hpre'⟩
    cases hx : R c with
    | error e s => exact .lost (not_telling_of_fault (herror c e s hx))
    | ok a d =>
      obtain ⟨htried, l, hne, hn, hadmits⟩ := hok c a d hx
      rcases beyond_or_append hpre (skipBlank_suffix_skipBlank hn.suffix) with hb | ⟨mid, hmid⟩
      · exact .lost ⟨by simp [htried], .inl hb⟩
      · obtain ⟨rest', hn', hrest'⟩ := hn.shift hne fork.break_right hpre hpre' hmid
        obtain ⟨tried, hx'⟩ := hadmits _ (Nat.lt_succ_self c'.rest.length) (.single hn')
          (by simp [Stops])
        rw [hx']
        exact .together (by simp [htried]) ⟨mid, hmid, hrest'⟩

theorem Follows.name (h : Short P) : fork.Follows P (name standard) (name standard) [] := by
  refine .of_lexeme (.name h) (fun c e s he expected hf => ?_) fun c w d hw => ?_
  · have := (name_eq_error he).1
    simp [hf] at this
  · obtain ⟨hne, hr, rfl, rfl⟩ := name_eq_ok hw
    exact ⟨rfl, _, by simp, .word hne hr, fun n => admits_name⟩

/-- A report of the left reader on the point means that the right one fails. -/
structure Reports (before : List Token) (R R' : Reader α) : Prop where
  lost : ∀ ⦃c e s⦄, c.tried ⊆ before → fork.Strayed c.tried c → R c = .error e s →
    ¬ fork.Telling e
  fails : ∀ ⦃c c' e s⦄, c.tried ⊆ before → fork.Parted c c' → R c = .error e s →
    fork.Telling e → ∃ e' s', R' c' = .error e' s'

theorem Reports.bind (hR : fork.Follows P R R' S)
    (hf : ∀ a, fork.Reports S (f a) (f' a)) : fork.Reports P (R >>= f) (R' >>= f') where
  lost := by
    intro c e s hc hs h
    have hl := hR.loses hc hs
    rcases bind_eq_error.mp h with h | ⟨a, d, ha, h⟩
    · rw [h] at hl
      exact hl
    · rw [ha] at hl
      exact (hf a).lost hl.1 hl.2 h
  fails := by
    intro c c' e s hc hp h ht
    have ho := hR.outcome hc hp
    generalize hx : R c = x at ho
    generalize hy : R' c' = y at ho
    cases ho with
    | together htried hp =>
      rw [bind_of_ok hx] at h
      rw [bind_of_ok hy]
      exact (hf _).fails htried hp h ht
    | lost hl =>
      rcases bind_eq_error.mp h with h | ⟨a, d, ha, h⟩
      · rw [← hx, h] at hl
        exact absurd ht hl
      · rw [← hx, ha] at hl
        exact absurd ht ((hf a).lost hl.1 hl.2 h)
    | fails => exact ⟨_, _, bind_eq_error.mpr (.inl hy)⟩

theorem Reports.map {g g' : α → β} (hR : fork.Reports P R R') :
    fork.Reports P (R >>= fun a => Pure.pure (g a)) (R' >>= fun a => Pure.pure (g' a)) where
  lost := by
    intro c e s hc hs h
    rcases bind_eq_error.mp h with h | ⟨a, d, -, h⟩
    · exact hR.lost hc hs h
    · cases h
  fails := by
    intro c c' e s hc hp h ht
    rcases bind_eq_error.mp h with h | ⟨a, d, -, h⟩
    · obtain ⟨e', s', h'⟩ := hR.fails hc hp h ht
      exact ⟨e', s', bind_eq_error.mpr (.inl h')⟩
    · cases h

theorem Reports.get {f f' : Cursor → Reader β} (hf : ∀ c c', fork.Reports P (f c) (f' c')) :
    fork.Reports P (get >>= f) (get >>= f') where
  lost := fun c _ _ hc hs h => (hf c c).lost hc hs h
  fails := fun c c' _ _ hc hp h => (hf c c').fails hc hp h

theorem Reports.stalled_left :
    fork.Reports P (do Reader.fail .stalled (← Reader.ahead)) R' where
  lost := by
    intro c e s _ _ h
    cases h
    exact not_telling_of_fault (by nofun)
  fails := by
    intro c c' e s _ _ h
    cases h
    exact fun ht => absurd ht (not_telling_of_fault (by nofun))

theorem Reports.stalled_right (hR : fork.Reports P R R') :
    fork.Reports P R (do Reader.fail .stalled (← Reader.ahead)) where
  lost := hR.lost
  fails := fun _ _ _ _ _ _ _ _ => ⟨_, _, rfl⟩

section

variable {token : α → Token} {values : List α} {g g' : α → Reader β}

/-- After a report on the point none of the values comes next in the right text either. -/
theorem Telling.take_eq_error {c c' : Cursor} {tried : List Token}
    (h : fork.Telling ⟨.unexpected (standard.forms tried), c.ahead⟩) (hp : fork.Parted c c')
    (htried : values.map token ⊆ tried) :
    ∃ e s, (take standard token values >>= g') c' = .error e s := by
  obtain ⟨pre, hpre, hpre'⟩ := hp
  obtain ⟨expected, he, hall⟩ := h
  obtain ⟨hforms, hahead⟩ := Failure.mk.inj he
  obtain rfl : pre = [] := by simpa [hpre] using hahead
  rcases take?_cases standard token values c' with ⟨v, rest, hm, ha, -⟩ | ⟨-, ht⟩
  · have hv : standard.form (token v) ∈ expected := by
      rw [← Fault.unexpected.inj hforms]
      exact mem_forms.mpr ⟨token v, htried (List.mem_map_of_mem hm), rfl⟩
    rw [hpre', List.nil_append, hall _ hv] at ha
    cases ha
  · exact ⟨_, _, bind_eq_error.mpr (.inl (take_eq_of_none ht))⟩

/-- The text may also end, which one of the values stands for. -/
theorem Reports.take [DecidableEq α] (last : α) (hv : ∀ v ∈ values, v ≠ last →
      token v ∈ Token.spelled ∧ ∀ u ∈ P, (token v).Apart u)
    (hapart : ∀ v ∈ values, ∀ u ∈ values, u ≠ v → (token v).Apart (token u))
    (hlast : ∀ c e s, g last c ≠ .error e s)
    (hg : ∀ v ∈ values, v ≠ last → fork.Reports [] (g v) (g' v)) :
    fork.Reports P (take standard token values >>= g) (take standard token values >>= g') where
  lost := by
    intro c e s hc hs h
    rcases take?_cases standard token values c with ⟨v, rest, hm, ha, ht⟩ | ⟨-, ht⟩
    · rw [bind_of_ok (take_eq_of_some ht)] at h
      by_cases hne : v = last
      · exact absurd h (hne ▸ hlast _ e s)
      · obtain ⟨hspelled, hclear⟩ := hv v hm hne
        have hb : fork.Beyond ⟨rest, []⟩ := hs.beyond hspelled (fun u hu => hclear u (hc hu)) ha
        exact (hg v hm hne).lost (List.Subset.refl _) (.inl hb) h
    · rw [bind_eq_error.mpr (.inl (take_eq_of_none ht))] at h
      cases h
      exact not_telling (c := ⟨c.rest, c.tried ++ values.map token⟩)
        (hs.mono (List.subset_append_left _ _))
  fails := by
    rintro c c' e s hc ⟨pre, hpre, hpre'⟩ h htelling
    rcases take?_cases standard token values c with ⟨v, rest, hm, ha, ht⟩ | ⟨-, ht⟩
    · rw [bind_of_ok (take_eq_of_some ht)] at h
      by_cases hne : v = last
      · exact absurd h (hne ▸ hlast _ e s)
      · rcases beyond_or_after? [] (hv v hm hne).1 hpre ha with hb | ⟨mid, rest', hmid, h', hrest'⟩
        · exact absurd htelling ((hg v hm hne).lost (List.Subset.refl _) (.inl hb) h)
        · rw [← hpre'] at h'
          have hfirst := first_of_unique hm
            (fun u hu hne => standard_after?_eq_none (hapart v hm u hu hne) h') h'
          have hparted : fork.Parted ⟨rest, []⟩ ⟨rest', []⟩ := ⟨mid, hmid, hrest'⟩
          rw [bind_of_ok (take_eq_of_some (take?_eq_of_some hfirst))]
          exact (hg v hm hne).fails (List.Subset.refl _) hparted h htelling
    · rw [bind_eq_error.mpr (.inl (take_eq_of_none ht))] at h
      cases h
      exact htelling.take_eq_error ⟨pre, hpre, hpre'⟩ (List.subset_append_right _ _)

end

end Fork

end Wordy
