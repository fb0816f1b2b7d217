import Mathlib
import Wordy.Proofs.StandardPhrases
import Wordy.Proofs.Yields

/-! The converse of what a reader yields, under the standard phrases. A reader admits a list of
lexemes as a value when it reads them to the end in every text that does not go on with one of the
tokens it would still look for. Those are its stops, and a sequence of readers goes through where
the lexemes to come begin with none of them. -/

namespace Wordy

open Text Phrasebook Reader

namespace Lexeme.Next

variable {book : Phrasebook} {l : Lexeme} {text rest : List Char}

theorem suffix (h : l.Next book text rest) : rest <:+ text := by
  refine List.IsSuffix.trans ?_ (skipBlank_suffix text)
  cases h with
  | token h => exact after?_suffix h
  | word _ _ => exact afterWord_suffix _
  | quotation h => exact (skipBlank_suffix _).trans (quoted?_suffix h)

theorem token_iff {t : Token} :
    (Lexeme.token t).Next book text rest ↔ book.after? t (skipBlank text) = some rest :=
  ⟨fun h => by cases h; assumption, .token⟩

theorem word_iff {w : String} :
    (Lexeme.word w).Next book text rest ↔ skipBlank text ≠ [] ∧
      book.isReserved (Text.word (skipBlank text)) = false ∧
      w = .ofList (Text.word (skipBlank text)) ∧ rest = afterWord (skipBlank text) := by
  constructor
  · intro h
    cases h with
    | word hne hr => exact ⟨hne, hr, rfl, rfl⟩
  · rintro ⟨hne, hr, rfl, rfl⟩
    exact .word hne hr

theorem quotation_iff {s : String} :
    (Lexeme.quotation s).Next book text rest ↔ ∃ contents after,
      quoted? (skipBlank text) = some (contents, after) ∧ s = .ofList contents ∧
        rest = skipBlank after := by
  constructor
  · intro h
    cases h with
    | quotation hq => exact ⟨_, _, hq, rfl, rfl⟩
  · rintro ⟨contents, after, hq, rfl, rfl⟩
    exact .quotation hq

theorem unique {rest' : List Char} (h : l.Next book text rest) (h' : l.Next book text rest') :
    rest = rest' := by
  cases l with
  | token t =>
    rw [token_iff] at h h'
    exact Option.some.inj (h.symm.trans h')
  | word w =>
    rw [word_iff] at h h'
    rw [h.2.2.2, h'.2.2.2]
  | quotation s =>
    obtain ⟨contents, after, hq, -, rfl⟩ := quotation_iff.mp h
    obtain ⟨contents', after', hq', -, rfl⟩ := quotation_iff.mp h'
    rw [hq] at hq'
    cases hq'
    rfl

theorem length_lt {t : Token} (ht : t ∈ Token.spelled)
    (h : (Lexeme.token t).Next standard text rest) : rest.length < text.length := by
  rw [token_iff, standard_after? ht] at h
  have hle := (skipBlank_suffix text).length_le
  cases hw : t.words with
  | nil => exact absurd hw (Token.words_ne_nil t)
  | cons w ws =>
    have hne := (Token.plain_words ht w (by simp [hw])).1
    rw [hw, Phrase.afterWords?] at h
    split at h
    · next hl =>
      have hword : (Text.word (skipBlank text)).length = w.length := by
        simpa using congrArg List.length hl
      obtain ⟨gap, -, hs, -⟩ := exists_gap (skipBlank text)
      have hlen := congrArg List.length hs
      simp only [List.length_append] at hlen
      have hr := (Phrase.afterWords?_suffix h).length_le
      have := List.length_pos_iff.mpr hne
      omega
    · cases h

end Lexeme.Next

theorem Reads.suffix {book : Phrasebook} {ls : List Lexeme} {text rest : List Char}
    (h : Reads book ls text rest) : rest <:+ text := by
  induction h with
  | nil => exact List.suffix_refl _
  | cons h _ ih => exact ih.trans h.suffix

/-- The text goes on with none of the tokens. -/
def Stops (tokens : List Token) (text : List Char) : Prop :=
  ∀ t ∈ tokens, standard.after? t (skipBlank text) = none

theorem Stops.mono {us ts : List Token} {text : List Char} (h : Stops ts text) (hs : us ⊆ ts) :
    Stops us text :=
  fun u hu => h u (hs hu)

/-- Where the text goes on with the lexemes and then with none of the later tokens, it goes on with
none of the former ones. -/
def Leads (ls : List Lexeme) (later former : List Token) : Prop :=
  ∀ ⦃text rest : List Char⦄, Reads standard ls text rest → Stops later rest → Stops former text

namespace Leads

variable {ls : List Lexeme} {later former : List Token}

theorem none : Leads ls later [] := fun _ _ _ _ => by simp [Stops]

theorem nil (h : former ⊆ later) : Leads [] later former := by
  intro text rest hr hs
  cases hr
  exact hs.mono h

theorem token {t : Token} (h : ∀ u ∈ former, t.Apart u) : Leads (.token t :: ls) later former := by
  intro text rest hr _ u hu
  cases hr with
  | cons hn _ => exact standard_after?_eq_none (h u hu) (Lexeme.Next.token_iff.mp hn)

end Leads

namespace Reader

variable {α β : Type} {n : Nat}

/-- In texts shorter than the bound, the reader reads the lexemes as the value. -/
def Admits (n : Nat) (R : Reader α) (a : α) (ls : List Lexeme) (stops : List Token) : Prop :=
  ∀ ⦃c : Cursor⦄ ⦃rest : List Char⦄, c.rest.length < n → Reads standard ls c.rest rest →
    Stops stops rest → ∃ tried, R c = .ok a ⟨rest, tried⟩

theorem Admits.bind {R : Reader α} {f : α → Reader β} {a : α} {b : β} {ls ms : List Lexeme}
    {ts us : List Token} (hR : Admits n R a ls ts) (hf : Admits n (f a) b ms us)
    (hl : Leads ms us ts) : Admits n (R >>= f) b (ls ++ ms) us := by
  intro c rest hc hr hs
  obtain ⟨mid, h₁, h₂⟩ := hr.of_append
  obtain ⟨tried, ha⟩ := hR hc h₁ (hl h₂ hs)
  obtain ⟨tried', hb⟩ := hf (c := ⟨mid, tried⟩) (h₁.suffix.length_le.trans_lt hc) h₂ hs
  exact ⟨tried', bind_eq_ok.mpr ⟨a, _, ha, hb⟩⟩

theorem Admits.pure {a : α} {ts : List Token} : Admits n (pure a) a [] ts := by
  intro c rest _ hr _
  cases hr
  exact ⟨c.tried, rfl⟩

theorem Admits.map {R : Reader α} {f : α → β} {a : α} {ls : List Lexeme} {ts : List Token}
    (hR : Admits n R a ls ts) : Admits n (R >>= fun a => Pure.pure (f a)) (f a) ls ts := by
  intro c rest hc hr hs
  obtain ⟨tried, ha⟩ := hR hc hr hs
  exact ⟨tried, bind_eq_ok.mpr ⟨a, _, ha, rfl⟩⟩

theorem Admits.ahead {f : List Char → Reader β} {b : β} {ls : List Lexeme} {ts : List Token}
    (hf : ∀ start, Admits n (f start) b ls ts) : Admits n (ahead >>= f) b ls ts := by
  intro c rest hc hr hs
  obtain ⟨tried, hb⟩ := hf c.ahead hc hr hs
  exact ⟨tried, bind_eq_ok.mpr ⟨c.ahead, c, rfl, hb⟩⟩

theorem Admits.mono {R : Reader α} {a : α} {ls : List Lexeme} {ts us : List Token}
    (hR : Admits n R a ls ts) (h : ts ⊆ us) : Admits n R a ls us :=
  fun _ _ hc hr hs => hR hc hr (hs.mono h)

theorem Admits.of_le {R : Reader α} {a : α} {ls : List Lexeme} {ts : List Token} {m : Nat}
    (hR : Admits n R a ls ts) (h : m ≤ n) : Admits m R a ls ts :=
  fun _ _ hc hr hs => hR (hc.trans_le h) hr hs

theorem admits_zero {R : Reader α} {a : α} {ls : List Lexeme} {ts : List Token} :
    Admits 0 R a ls ts :=
  fun _ _ hc => absurd hc (Nat.not_lt_zero _)

theorem Admits.get {f : Cursor → Reader β} {b : β} {ls : List Lexeme} {ts : List Token}
    (hf : ∀ c, Admits (min n (c.rest.length + 1)) (f c) b ls ts) :
    Admits n (get >>= f) b ls ts := by
  intro c rest hc hr hs
  obtain ⟨tried, hb⟩ := hf c (lt_min hc (Nat.lt_succ_self _)) hr hs
  exact ⟨tried, bind_eq_ok.mpr ⟨c, c, rfl, hb⟩⟩

/-- After a phrase less is left, so that any lower bound will do. -/
theorem Admits.bind_token {R : Reader α} {f : α → Reader β} {a : α} {b : β} {t : Token}
    {ms : List Lexeme} {us : List Token} (hR : Admits n R a [.token t] [])
    (ht : t ∈ Token.spelled) (hf : ∀ m < n, Admits m (f a) b ms us) :
    Admits n (R >>= f) b (.token t :: ms) us := by
  intro c rest hc hr hs
  cases hr with
  | @cons _ _ _ mid _ hn hm =>
    obtain ⟨tried, ha⟩ := hR hc (.single hn) (by simp [Stops])
    obtain ⟨tried', hb⟩ := hf _ hc (c := ⟨mid, tried⟩) (hn.length_lt ht) hm hs
    exact ⟨tried', bind_eq_ok.mpr ⟨a, _, ha, hb⟩⟩

theorem admits_take?_some [DecidableEq α] {token : α → Token} {values : List α} {value : α}
    (hm : value ∈ values) (hu : ∀ v ∈ values, v ≠ value → (token value).Apart (token v)) :
    Admits n (take? standard token values) (some value) [.token (token value)] [] := by
  intro c rest _ hr _
  cases hr with
  | cons hn hr =>
    cases hr
    have ha := Lexeme.Next.token_iff.mp hn
    refine ⟨[], take?_eq_of_some (first_of_unique hm (fun v hv hne => ?_) ha)⟩
    exact standard_after?_eq_none (hu v hv hne) ha

theorem admits_take?_none {token : α → Token} {values : List α} :
    Admits n (take? standard token values) none [] (values.map token) := by
  intro c rest _ hr hs
  cases hr
  exact ⟨_, take?_eq_of_none fun v hv => hs _ (List.mem_map_of_mem hv)⟩

theorem admits_take [DecidableEq α] {token : α → Token} {values : List α} {value : α}
    (hm : value ∈ values) (hu : ∀ v ∈ values, v ≠ value → (token value).Apart (token v)) :
    Admits n (take standard token values) value [.token (token value)] [] :=
  (admits_take?_some hm hu).bind .pure .none

theorem admits_accept_true {t : Token} : Admits n (accept standard t) true [.token t] [] :=
  (admits_take?_some List.mem_cons_self (by simp)).map

theorem admits_accept_false {t : Token} : Admits n (accept standard t) false [] [t] :=
  admits_take?_none.map

theorem admits_expect {t : Token} : Admits n (expect standard t) () [.token t] [] :=
  (admits_take List.mem_cons_self (by simp)).map

theorem admits_name {w : String} : Admits n (name standard) w [.word w] [] := by
  intro c rest _ hr _
  cases hr with
  | cons hn hr =>
    cases hr
    cases hn with
    | word hne hres => exact ⟨[], name_eq hne hres⟩

theorem admits_optional_some {sign : Reader Bool} {part : Reader α} {a : α}
    {ls ms : List Lexeme} {ts : List Token} (hs : Admits n sign true ls [])
    (hp : Admits n part a ms ts) : Admits n (optional sign part) (some a) (ls ++ ms) ts := by
  unfold optional
  exact hs.bind hp.map .none

theorem admits_optional_none {sign : Reader Bool} {part : Reader α} {ts : List Token}
    (hs : Admits n sign false [] ts) : Admits n (optional sign part) none [] ts := by
  intro c rest hc hr hstops
  obtain ⟨tried, hf⟩ := hs hc hr hstops
  exact ⟨tried, bind_eq_ok.mpr ⟨false, _, hf, rfl⟩⟩

end Reader

end Wordy
