import Mathlib
import Wordy.Parse
import Wordy.Proofs.Admits
import Wordy.Proofs.ParsedExpressions

/-! Where failures are. Under a phrasebook without an empty phrase a token takes at least one
character, so that no reader comes to the end of its limit, and every failure is at the start of a
word that it is true of, or at the end of the text. -/

namespace Wordy

open Text Reader

namespace Phrase

theorem length_lt_of_spelled? {phrase text rest : List Char} (hne : phrase ≠ [])
    (h : spelled? phrase text = some rest) : rest.length < text.length := by
  cases phrase with
  | nil => exact absurd rfl hne
  | cons p phrase =>
    cases text with
    | nil => cases h
    | cons c text =>
      have hskip := (skipBlank_suffix text).length_le
      have hrest : rest.length ≤ text.length := by
        simp only [spelled?] at h
        split at h
        · split at h
          · exact (spelled?_suffix h).length_le.trans hskip
          · cases h
        · split at h
          · exact (spelled?_suffix h).length_le
          · cases h
      exact Nat.lt_succ_of_le hrest

theorem length_lt_of_after? {phrase text rest : List Char} (hne : phrase ≠ [])
    (h : after? phrase text = some rest) : rest.length < text.length := by
  rw [after?] at h
  split at h
  · next hs =>
    cases h
    exact length_lt_of_spelled? hne hs
  · next c s hs =>
    split at h
    · cases h
      have hlt := length_lt_of_spelled? hne hs
      have hle := (skipBlank_suffix s).length_le
      rw [List.length_cons] at hlt
      omega
    · cases h
  · cases h

end Phrase

namespace Phrasebook

def HasNoEmptyPhrase (book : Phrasebook) : Prop :=
  ∀ spelling ∈ book.spellings, spelling.phrase ≠ ""

instance (book : Phrasebook) : Decidable book.HasNoEmptyPhrase := by
  unfold HasNoEmptyPhrase
  infer_instance

variable {book : Phrasebook} {t : Token} {text rest : List Char}

theorem standard_hasNoEmptyPhrase : standard.HasNoEmptyPhrase := by decide

theorem HasNoEmptyPhrase.phrase?_ne (hbook : book.HasNoEmptyPhrase) {phrase : String}
    (h : book.phrase? t = some phrase) : phrase.toList ≠ [] := by
  obtain ⟨spelling, hfind, rfl⟩ := Option.map_eq_some_iff.mp h
  have hmem := List.mem_reverse.mp (List.mem_of_find?_eq_some hfind)
  exact fun he => hbook spelling hmem (String.toList_eq_nil_iff.mp he)

theorem HasNoEmptyPhrase.length_lt (hbook : book.HasNoEmptyPhrase) (ht : t ≠ .endOfInput)
    (h : book.after? t text = some rest) : rest.length < text.length := by
  rw [after?, if_neg ht] at h
  cases hphrase : book.phrase? t with
  | none => simp [hphrase] at h
  | some phrase =>
    rw [hphrase] at h
    exact Phrase.length_lt_of_after? (hbook.phrase?_ne hphrase) h

end Phrasebook

/-- What the fault says is true of the text at its place. -/
def Fault.Fits (book : Phrasebook) (rest : List Char) : Fault → Prop
  | unexpected forms => ∃ tokens, tokens ≠ [] ∧ forms = book.forms tokens
  | endOfText => rest = []
  | reserved w => rest ≠ [] ∧ book.isReserved (word rest) = true ∧ w = .ofList (word rest)
  | untypedVariable w => rest ≠ [] ∧ w = .ofList (word rest)
  | untypedParameter w _ => rest ≠ [] ∧ w = .ofList (word rest)
  | nestedFunction => ∃ after, book.after? .defineFunction rest = some after
  | noExpression w => rest ≠ [] ∧ w = .ofList (word rest)
  | tooDeep => rest ≠ []
  | stalled => False

structure Failure.Placed (book : Phrasebook) (text : List Char) (e : Failure) : Prop where
  suffix : e.rest <:+ text
  skipBlank : skipBlank e.rest = e.rest
  fits : e.fault.Fits book e.rest

theorem Failure.Placed.fault_ne_stalled {book : Phrasebook} {text : List Char} {e : Failure}
    (h : e.Placed book text) : e.fault ≠ .stalled := by
  intro he
  have hfits := h.fits
  rw [he] at hfits
  exact hfits

/-- Only where something is missing can a failure be at the end of the text. -/
theorem Failure.Placed.fault_of_nil {book : Phrasebook} {text : List Char} {e : Failure}
    (h : e.Placed book text) (hbook : book.HasNoEmptyPhrase) (hrest : e.rest = []) :
    (∃ tokens, tokens ≠ [] ∧ e.fault = .unexpected (book.forms tokens)) ∨ e.fault = .endOfText := by
  obtain ⟨fault, rest⟩ := e
  obtain rfl : rest = [] := hrest
  have hfits := h.fits
  cases fault with
  | unexpected forms =>
    obtain ⟨tokens, hne, rfl⟩ := hfits
    exact .inl ⟨tokens, hne, rfl⟩
  | endOfText => exact .inr rfl
  | nestedFunction =>
    obtain ⟨after, ha⟩ := hfits
    exact absurd (hbook.length_lt (by decide) ha) (Nat.not_lt_zero _)
  | tooDeep => exact absurd rfl hfits
  | stalled => exact hfits.elim
  | reserved _ => exact absurd rfl hfits.1
  | untypedVariable _ => exact absurd rfl hfits.1
  | untypedParameter _ _ => exact absurd rfl hfits.1
  | noExpression _ => exact absurd rfl hfits.1

namespace Reader

variable {α β : Type}

/-- The reader has come to a later place of the text, or to a failure in it. -/
def Within (book : Phrasebook) (text rest : List Char) : EStateM.Result Failure Cursor α → Prop
  | .ok _ d => d.rest <:+ rest
  | .error e _ => e.Placed book text

/-- The reader stays within the text, wherever less than `n` characters of it are left. -/
def Places (book : Phrasebook) (text : List Char) (n : Nat) (R : Reader α) : Prop :=
  ∀ ⦃c : Cursor⦄, c.rest <:+ text → c.rest.length < n → Within book text c.rest (R c)

variable {book : Phrasebook} {text : List Char} {n m : Nat} {R : Reader α} {f : α → Reader β}

theorem Within.trans {rest mid : List Char} {x : EStateM.Result Failure Cursor α}
    (h : Within book text mid x) (hs : mid <:+ rest) : Within book text rest x := by
  cases x with
  | ok a d => exact List.IsSuffix.trans h hs
  | error e s => exact h

theorem ahead_suffix (c : Cursor) : c.ahead <:+ c.rest := skipBlank_suffix c.rest

theorem Places.mono (h : Places book text n R) (hle : m ≤ n) : Places book text m R :=
  fun _ hc hlt => h hc (hlt.trans_le hle)

theorem Places.bind (hR : Places book text n R) (hf : ∀ a, Places book text n (f a)) :
    Places book text n (R >>= f) := by
  intro c hc hlt
  have h := hR hc hlt
  cases hx : R c with
  | ok a d =>
    rw [hx] at h
    have hd : d.rest <:+ c.rest := h
    rw [bind_of_ok hx]
    exact (hf a (hd.trans hc) (hd.length_le.trans_lt hlt)).trans hd
  | error e s =>
    rw [hx] at h
    rw [bind_eq_error.mpr (.inl hx)]
    exact h

theorem Places.pure {a : α} : Places book text n (pure a) := fun c _ _ => List.suffix_refl c.rest

theorem Places.fail {fault : Fault} {rest : List Char}
    (h : Failure.Placed book text ⟨fault, rest⟩) :
    Places book text n (fail fault rest : Reader α) :=
  fun _ _ _ => h

theorem Places.zero : Places book text 0 R := fun _ _ hlt => absurd hlt (Nat.not_lt_zero _)

theorem Places.get {f : Cursor → Reader β}
    (hf : ∀ c, c.rest.length < n → Places book text (c.rest.length + 1) (f c)) :
    Places book text n (get >>= f) :=
  fun c hc hlt => hf c hlt hc (Nat.lt_succ_self _)

theorem Within.behind {t : Token} {g : Reader β} {c : Cursor} {rest : List Char}
    (hbook : book.HasNoEmptyPhrase) (hc : c.rest <:+ text) (hlt : c.rest.length < n)
    (ha : book.after? t c.ahead = some rest)
    (hg : ∀ m ≤ n, (t ≠ .endOfInput → m < n) → Places book text m g) :
    Within book text c.rest (g ⟨rest, []⟩) := by
  have hs : rest <:+ c.rest := (Lexeme.Next.token ha).suffix
  have hle := hs.length_le
  have hmoves (hne : t ≠ .endOfInput) : rest.length + 1 < n := by
    have hshort := hbook.length_lt hne ha
    have hahead := (ahead_suffix c).length_le
    omega
  exact (hg (rest.length + 1) (by omega) hmoves (hs.trans hc) (Nat.lt_succ_self _)).trans hs

section

variable {token : α → Token} {values : List α}

theorem Places.of_take? {g : Option α → Reader β} (hbook : book.HasNoEmptyPhrase)
    (hsome : ∀ v ∈ values, ∀ m ≤ n, (token v ≠ .endOfInput → m < n) →
      Places book text m (g (some v)))
    (hnone : Places book text n (g none)) :
    Places book text n (take? book token values >>= g) := by
  intro c hc hlt
  rcases take?_cases book token values c with ⟨v, rest, hv, ha, ht⟩ | ⟨-, ht⟩
  · rw [bind_of_ok ht]
    exact .behind hbook hc hlt ha (hsome v hv)
  · rw [bind_of_ok ht]
    exact hnone hc hlt

theorem placed_unexpected {c : Cursor} (hc : c.rest <:+ text) (hne : c.tried ≠ []) :
    Failure.Placed book text ⟨.unexpected (book.forms c.tried), c.ahead⟩ :=
  ⟨(ahead_suffix c).trans hc, skipBlank_skipBlank c.rest, c.tried, hne, rfl⟩

theorem Places.of_take {g : α → Reader β} (hbook : book.HasNoEmptyPhrase) (hne : values ≠ [])
    (hg : ∀ v ∈ values, ∀ m ≤ n, (token v ≠ .endOfInput → m < n) → Places book text m (g v)) :
    Places book text n (take book token values >>= g) := by
  intro c hc hlt
  rcases take?_cases book token values c with ⟨v, rest, hv, ha, ht⟩ | ⟨-, ht⟩
  · rw [bind_of_ok (take_eq_of_some ht)]
    exact .behind hbook hc hlt ha (hg v hv)
  · rw [bind_eq_error.mpr (.inl (take_eq_of_none ht))]
    exact placed_unexpected (c := ⟨c.rest, c.tried ++ values.map token⟩) hc (by simp [hne])

end

theorem Places.of_accept {t : Token} {g : Bool → Reader β} (hbook : book.HasNoEmptyPhrase)
    (ht : t ≠ .endOfInput) (htrue : ∀ m < n, Places book text m (g true))
    (hfalse : Places book text n (g false)) : Places book text n (accept book t >>= g) := by
  rw [accept_bind]
  refine .of_take? hbook (fun u hu m _ hm => htrue m (hm ?_)) hfalse
  rwa [List.mem_singleton.mp hu]

theorem places_take? {token : α → Token} {values : List α} :
    Places book text n (take? book token values) := by
  intro c _ _
  rcases take?_cases book token values c with ⟨v, rest, -, ha, ht⟩ | ⟨-, ht⟩
  · rw [ht]
    exact (Lexeme.Next.token ha).suffix
  · rw [ht]
    exact List.suffix_refl c.rest

theorem places_take {token : α → Token} {values : List α} (hne : values ≠ []) :
    Places book text n (take book token values) := by
  intro c hc _
  rcases take?_cases book token values c with ⟨v, rest, -, ha, ht⟩ | ⟨-, ht⟩
  · rw [take_eq_of_some ht]
    exact (Lexeme.Next.token ha).suffix
  · rw [take_eq_of_none ht]
    exact placed_unexpected (c := ⟨c.rest, c.tried ++ values.map token⟩) hc (by simp [hne])

theorem places_accept {t : Token} : Places book text n (accept book t) :=
  places_take?.bind fun _ => .pure

theorem places_expect {t : Token} : Places book text n (expect book t) :=
  (places_take (by simp)).bind fun _ => .pure

theorem places_name : Places book text n (name book) := by
  intro c hc _
  have ha := (ahead_suffix c).trans hc
  have hskip : skipBlank c.ahead = c.ahead := skipBlank_skipBlank c.rest
  rw [name, bind_of_ok (show ahead c = .ok c.ahead c from rfl)]
  by_cases hnil : c.ahead = []
  · rw [if_pos hnil]
    exact ⟨ha, hskip, hnil⟩
  · rw [if_neg hnil]
    by_cases hr : book.isReserved (word c.ahead) = true
    · rw [if_pos hr]
      exact ⟨ha, hskip, hnil, hr, rfl⟩
    · rw [if_neg hr]
      exact (afterWord_suffix c.ahead).trans (ahead_suffix c)

theorem places_quotation? : Places book text n quotation? := by
  intro c _ _
  cases hq : quoted? c.ahead with
  | some quoted =>
    have hn : (Lexeme.quotation (.ofList quoted.1)).Next book c.rest (skipBlank quoted.2) :=
      .quotation hq
    rw [quotation?_eq_of_some hq]
    exact hn.suffix
  | none =>
    rw [quotation?_eq_of_none hq]
    exact List.suffix_refl c.rest

theorem Places.of_ahead_name {f : List Char → String → Reader β}
    (hf : ∀ start, start <:+ text → skipBlank start = start → start ≠ [] →
      Places book text n (f start (.ofList (word start)))) :
    Places book text n (ahead >>= fun start => name book >>= f start) := by
  intro c hc hlt
  have ha := ahead_suffix c
  have hplaces : Within book text c.rest (name book c) := places_name hc hlt
  rw [bind_of_ok (show ahead c = .ok c.ahead c from rfl)]
  cases hx : name book c with
  | ok w d =>
    obtain ⟨hne, -, rfl, rfl⟩ := name_eq_ok hx
    have hs := (afterWord_suffix c.ahead).trans ha
    rw [bind_of_ok hx]
    exact (hf c.ahead (ha.trans hc) (skipBlank_skipBlank c.rest) hne (hs.trans hc)
      (hs.length_le.trans_lt hlt)).trans hs
  | error e s =>
    rw [bind_eq_error.mpr (.inl hx)]
    rwa [hx] at hplaces

theorem places_optional {sign : Reader Bool} {part : Reader α} (hs : Places book text n sign)
    (hp : Places book text n part) : Places book text n (optional sign part) := by
  refine hs.bind fun found => ?_
  cases found with
  | true => exact hp.bind fun _ => .pure
  | false => exact .pure

theorem places_others {t : Token} {item : Reader α} (hbook : book.HasNoEmptyPhrase)
    (ht : t ≠ .endOfInput) (limit : Nat) (hi : Places book text limit item) :
    Places book text limit (others (accept book t) item limit) := by
  induction limit with
  | zero => exact .zero
  | succ limit ih =>
    refine .of_accept hbook ht (fun m hm => ?_) .pure
    have hle : m ≤ limit := Nat.le_of_lt_succ hm
    have hothers := ih (hi.mono (Nat.le_succ limit))
    exact (hi.mono (Nat.le_of_lt hm)).bind fun _ => (hothers.mono hle).bind fun _ => .pure

theorem places_separated {t : Token} {item : Reader α} (hbook : book.HasNoEmptyPhrase)
    (ht : t ≠ .endOfInput) (hi : Places book text n item) :
    Places book text n (separated (accept book t) item) :=
  hi.bind fun _ => .get fun _ hlt => (places_others hbook ht _ (hi.mono hlt)).bind fun _ => .pure

theorem within_refuseBlock {c : Cursor} (hc : c.rest <:+ text) (hne : c.tried ≠ []) :
    Within book text c.rest (refuseBlock (α := α) book c) := by
  obtain ⟨e, s, he, hf⟩ := refuseBlock_eq_error (α := α) book c
  rw [he]
  rcases hf with ⟨rfl, hfound⟩ | rfl
  · exact ⟨(ahead_suffix c).trans hc, skipBlank_skipBlank c.rest, hfound⟩
  · exact placed_unexpected hc hne

theorem places_closeBlock {closing : Token} : Places book text n (closeBlock book closing) := by
  intro c hc _
  rw [closeBlock_eq, accept_bind]
  rcases take?_cases book id [closing] c with ⟨t, rest, -, ha, ht⟩ | ⟨-, ht⟩
  · rw [bind_of_ok ht]
    exact (Lexeme.Next.token ha).suffix
  · rw [bind_of_ok ht]
    exact within_refuseBlock (c := ⟨c.rest, c.tried ++ [closing]⟩) hc (by simp)

end Reader

namespace Atom

variable {book : Phrasebook} {text : List Char} {n : Nat}

theorem places_readWord : Places book text n (readWord book) := by
  refine .of_ahead_name fun start hs hskip hne => ?_
  split
  · exact .pure
  · exact .fail ⟨hs, hskip, hne, rfl⟩

theorem places_read : Places book text n (read book) := by
  refine places_take?.bind fun value => ?_
  cases value with
  | some value => exact .pure
  | none =>
    refine places_quotation?.bind fun contents => ?_
    cases contents with
    | some contents => exact .pure
    | none => exact places_readWord

end Atom

section

variable {book : Phrasebook} {text : List Char} {n : Nat}

theorem Link.places_read : Places book text n (Link.read book) := by
  refine places_accept.bind fun found => ?_
  cases found with
  | true => exact .pure
  | false =>
    refine Atom.places_read.bind fun left => places_take?.bind fun operator => ?_
    cases operator <;> exact .pure

theorem Lexeme.Next.ahead_ne_nil {l : Lexeme} {rest : List Char} (hbook : book.HasNoEmptyPhrase)
    (hne : l ≠ .token .endOfInput) (h : l.Next book text rest) : skipBlank text ≠ [] := by
  intro hnil
  cases h with
  | @token t _ ha =>
    have hlt := hbook.length_lt (fun ht => hne (by rw [ht])) ha
    simp [hnil] at hlt
  | word hskip _ => exact hskip hnil
  | quotation hq => simp [hnil, quoted?] at hq

theorem Link.ahead_ne_nil {c d : Cursor} {next : Link ⊕ Atom} (hbook : book.HasNoEmptyPhrase)
    (h : Link.read book c = .ok next d) : c.ahead ≠ [] := by
  obtain ⟨ls, hls, hr⟩ := Link.yields_read h
  have hfirst : ∃ l ms, ls = l :: ms ∧ l ≠ .token .endOfInput := by
    have hatom {a : Atom} {l : Lexeme} (ha : a.Written l) : l ≠ .token .endOfInput := by
      cases ha with
      | @truth value => cases value <;> simp [Atom.truthToken]
      | _ => simp
    cases next with
    | inl link =>
      cases link with
      | negation => exact ⟨_, [], hls, nofun⟩
      | operation left operator =>
        obtain ⟨l, hl, rfl⟩ := hls
        exact ⟨l, _, rfl, hatom hl⟩
    | inr last =>
      obtain ⟨l, hl, rfl⟩ := hls
      exact ⟨l, [], rfl, hatom hl⟩
  obtain ⟨l, ms, rfl, hne⟩ := hfirst
  cases hr with
  | cons hn _ => exact hn.ahead_ne_nil hbook hne

namespace Expression

theorem places_readChain {start : List Char} (hs : start <:+ text) (hskip : skipBlank start = start)
    (hne : start ≠ []) (limit : Nat) : Places book text n (readChain book start limit) := by
  induction limit with
  | zero =>
    refine Link.places_read.bind fun next => ?_
    cases next with
    | inl link => exact .fail ⟨hs, hskip, hne⟩
    | inr last => exact .pure
  | succ limit ih =>
    refine Link.places_read.bind fun next => ?_
    cases next with
    | inl link => exact ih.bind fun _ => .pure
    | inr last => exact .pure

theorem places_read (hbook : book.HasNoEmptyPhrase) : Places book text n (read book) := by
  intro c hc hlt
  have hs := (ahead_suffix c).trans hc
  rw [read, bind_of_ok (show ahead c = .ok c.ahead c from rfl)]
  by_cases hnil : c.ahead = []
  · have hlink : Within book text c.rest (Link.read book c) := Link.places_read hc hlt
    cases hx : Link.read book c with
    | ok next d => exact absurd hnil (Link.ahead_ne_nil hbook hx)
    | error e s =>
      have hchain : readChain book c.ahead maxOperators c = .error e s :=
        bind_eq_error.mpr (.inl hx)
      rw [bind_eq_error.mpr (.inl hchain)]
      rwa [hx] at hlink
  · exact ((places_readChain hs (skipBlank_skipBlank c.rest) hnil _).bind fun _ => .pure) hc hlt

end Expression

theorem BaseType.places_read : Places book text n (BaseType.read book) :=
  places_take (by decide)

theorem Ascription.places_read? : Places book text n (Ascription.read? book) := by
  refine places_accept.bind fun found => ?_
  cases found with
  | true => exact BaseType.places_read.bind fun _ => .pure
  | false => exact places_take?.bind fun _ => .pure

theorem Opening.token_ne_endOfInput (opening : Opening) : opening.token ≠ .endOfInput := by
  cases opening with
  | change kind => cases kind <;> decide
  | _ => decide

namespace Statement

variable {body : Reader (List Statement)}

theorem places_readDeclaration (hbook : book.HasNoEmptyPhrase) :
    Places book text n (readDeclaration book) := by
  refine .of_ahead_name fun start hs hskip hne => places_expect.bind fun _ =>
    Ascription.places_read?.bind fun ascription => ?_
  have hsign : Places book text n
      (return (← take? book id [.equalTo, .initializedTo]).isSome) :=
    places_take?.bind fun _ => .pure
  refine (places_optional hsign (Expression.places_read hbook)).bind fun value => ?_
  split
  · exact .fail ⟨hs, hskip, hne, rfl⟩
  · exact .pure

theorem places_readBranch (hbook : book.HasNoEmptyPhrase) (hb : Places book text n body) :
    Places book text n (readBranch book body) :=
  (Expression.places_read hbook).bind fun _ => places_expect.bind fun _ => hb.bind fun _ => .pure

theorem places_readConditional (hbook : book.HasNoEmptyPhrase) (hb : Places book text n body) :
    Places book text n (readConditional book body) := by
  have hbranches := places_separated hbook (t := .butIf) (by decide) (places_readBranch hbook hb)
  have hotherwise : Places book text n (optional (accept book .otherwise) do
      expect book .doWord; body) := places_optional places_accept (places_expect.bind fun _ => hb)
  exact hbranches.bind fun _ => hotherwise.bind fun _ => places_closeBlock.bind fun _ => .pure

theorem places_readForLoop (hbook : book.HasNoEmptyPhrase) (hb : Places book text n body) :
    Places book text n (readForLoop book body) := by
  have hbound : Places book text n (Expression.read book) := Expression.places_read hbook
  exact places_name.bind fun _ => places_expect.bind fun _ => hbound.bind fun _ =>
    places_expect.bind fun _ => hbound.bind fun _ => places_expect.bind fun _ => hb.bind fun _ =>
      places_closeBlock.bind fun _ => .pure

theorem places_readCall (hbook : book.HasNoEmptyPhrase) : Places book text n (readCall book) := by
  have harguments : Places book text n (separated (accept book .comma) (Expression.read book)) :=
    places_separated hbook (by decide) (Expression.places_read hbook)
  exact places_name.bind fun _ => (places_optional places_accept harguments).bind fun _ =>
    (places_optional places_accept places_name).bind fun _ => .pure

theorem places_read (hbook : book.HasNoEmptyPhrase) (hb : Places book text n body)
    (opening : Opening) : Places book text n (read book body opening) := by
  have hvalue : Places book text n (Expression.read book) := Expression.places_read hbook
  cases opening with
  | declare => exact places_readDeclaration hbook
  | change kind =>
    exact places_name.bind fun _ => places_expect.bind fun _ => hvalue.bind fun _ => .pure
  | print => exact hvalue.bind fun _ => .pure
  | conditional => exact places_readConditional hbook hb
  | whileLoop =>
    exact (places_readBranch hbook hb).bind fun _ => places_closeBlock.bind fun _ => .pure
  | forLoop => exact places_readForLoop hbook hb
  | call => exact places_readCall hbook
  | giveBack => exact hvalue.bind fun _ => .pure

/-- A statement takes one from the limit, and its first token at least from the text. -/
theorem places_readBlock (hbook : book.HasNoEmptyPhrase) (limit : Nat) :
    Places book text limit (readBlock book limit) := by
  induction limit with
  | zero => exact .zero
  | succ limit ih =>
    refine .of_take? hbook (fun opening _ m _ hm => ?_) .pure
    -- The opening has taken up a character, so one unit less of the limit is enough for the rest.
    have hlt := hm opening.token_ne_endOfInput
    have hblock := ih.mono (Nat.le_of_lt_succ hlt)
    exact (places_read hbook hblock opening).bind fun _ => hblock.bind fun _ => .pure

end Statement

theorem Parameter.places_read {function : String} :
    Places book text n (Parameter.read book function) := by
  refine .of_ahead_name fun start hs hskip hne => places_expect.bind fun _ =>
    Ascription.places_read?.bind fun ascription => ?_
  cases ascription with
  | some ascription => exact .pure
  | none => exact .fail ⟨hs, hskip, hne, rfl⟩

theorem Function.places_read {body : Reader (List Statement)} (hbook : book.HasNoEmptyPhrase)
    (hb : Places book text n body) : Places book text n (Function.read book body) := by
  refine places_name.bind fun name => ?_
  have hparameters : Places book text n
      (separated (accept book .comma) (Parameter.read book name)) :=
    places_separated hbook (by decide) Parameter.places_read
  exact (places_optional places_accept hparameters).bind fun _ =>
    (places_optional places_accept BaseType.places_read).bind fun _ => places_expect.bind fun _ =>
      hb.bind fun _ => places_closeBlock.bind fun _ => .pure

namespace Program

theorem places_readItems (hbook : book.HasNoEmptyPhrase) (limit : Nat) :
    Places book text limit (readItems book limit) := by
  induction limit with
  | zero => exact .zero
  | succ limit ih =>
    refine .of_take hbook (by decide) fun opening _ m _ hm => ?_
    have hblock : Places book text limit (Statement.readBlock book limit) :=
      Statement.places_readBlock hbook limit
    cases opening with
    | finish => exact .pure
    | function =>
      have hle : m ≤ limit := Nat.le_of_lt_succ (hm nofun)
      exact (Function.places_read hbook (hblock.mono hle)).bind fun _ => (ih.mono hle).bind
        fun _ => .pure
    | statement opening =>
      have hle : m ≤ limit := Nat.le_of_lt_succ (hm opening.token_ne_endOfInput)
      exact (Statement.places_read hbook (hblock.mono hle) opening).bind fun _ =>
        (ih.mono hle).bind fun _ => .pure

theorem places_read (hbook : book.HasNoEmptyPhrase) : Places book text n (read book) :=
  .get fun _ _ => (places_readItems hbook _).bind fun _ => .pure

end Program

/-- A source without a program has a failure in it that is true of its place. -/
theorem placed_of_parseWith {source : String} {d : Diagnostic} (hbook : book.HasNoEmptyPhrase)
    (h : parseWith book source = .error d) :
    ∃ e s, Program.read book (.start source.toList) = .error e s ∧
      e.Placed book source.toList ∧ d = e.locate source.toList := by
  rw [parseWith] at h
  cases hx : (Program.read book).run (.start source.toList) with
  | ok p c =>
    rw [hx] at h
    cases h
  | error e s =>
    rw [hx] at h
    have hp := Program.places_read hbook (c := .start source.toList) (List.suffix_refl _)
      (Nat.lt_succ_self _)
    rw [show Program.read book (.start source.toList) = .error e s from hx] at hp
    exact ⟨e, s, hx, hp, (Except.error.inj h).symm⟩

end

end Wordy
