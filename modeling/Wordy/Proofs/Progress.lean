import Mathlib
import Wordy.Program.Equality
import Wordy.Proofs.Failures
import Wordy.Proofs.Lockstep

/-! Reading comes to an end. Under a phrasebook without an empty phrase every lexeme but the end of
the text moves the cursor on. So a round of a loop takes at least one byte of the source, the limits
of the loops are never used up, and any greater ones give the same result. -/

namespace Wordy

open Text Reader

def Cursor.offset (source : List Char) (c : Cursor) : Nat := byteLength source - byteLength c.rest

theorem Text.byteLength_pos {s : List Char} (h : s ≠ []) : 0 < byteLength s := by
  cases s with
  | nil => exact absurd rfl h
  | cons c s =>
    have := c.utf8Size_pos
    rw [byteLength_cons]
    omega

theorem Cursor.offset_lt {source : List Char} {c d : Cursor} (hc : c.rest <:+ source)
    (hd : d.rest <:+ c.rest) (hlt : d.rest.length < c.rest.length) :
    c.offset source < d.offset source := by
  obtain ⟨before, hbefore⟩ := hc
  obtain ⟨passed, hpassed⟩ := hd
  have hne : passed ≠ [] := by
    rintro rfl
    simp [← hpassed] at hlt
  have hpos := byteLength_pos hne
  have hsource := congrArg byteLength hbefore
  have hrest := congrArg byteLength hpassed
  rw [byteLength_append] at hsource hrest
  rw [Cursor.offset, Cursor.offset]
  omega

theorem Lexeme.Next.length_lt_ahead {book : Phrasebook} {l : Lexeme} {text rest : List Char}
    (hbook : book.HasNoEmptyPhrase) (hne : l ≠ .token .endOfInput) (h : l.Next book text rest) :
    rest.length < (skipBlank text).length := by
  cases h with
  | token h => exact hbook.length_lt (fun ht => hne (by rw [ht])) h
  | word hskip _ =>
    obtain ⟨gap, -, hs, -⟩ := exists_gap (skipBlank text)
    have hpos := List.length_pos_iff.mpr (word_skipBlank_ne_nil hskip)
    have hlen := congrArg List.length hs
    simp only [List.length_append] at hlen
    omega
  | @quotation contents after h =>
    obtain ⟨quote, -, -, hs⟩ := quoted?_eq_some h
    have hle := (skipBlank_suffix after).length_le
    have hlen := congrArg List.length hs
    simp only [List.length_cons, List.length_append] at hlen
    omega

namespace Reader

variable {book : Phrasebook} {source : List Char} {α : Type}

/-- With each value that counts the reader has moved on, and is still within the source. -/
def Advances (source : List Char) (R : Reader α) (counts : α → Prop) : Prop :=
  ∀ ⦃c a d⦄, c.rest <:+ source → R c = .ok a d → counts a →
    d.rest <:+ source ∧ c.offset source < d.offset source ∧ d.offset source ≤ byteLength source

theorem Advances.of_yields {R : Reader α} {counts : α → Prop} {shape : α → List Lexeme → Prop}
    (hbook : book.HasNoEmptyPhrase) (hR : Yields book R shape)
    (hshape : ∀ a ls, counts a → shape a ls → ∃ l ms, ls = l :: ms ∧ l ≠ .token .endOfInput) :
    Advances source R counts := by
  intro c a d hc h hcounts
  obtain ⟨ls, hls, hr⟩ := hR h
  obtain ⟨l, ms, rfl, hne⟩ := hshape a ls hcounts hls
  have hd : d.rest <:+ c.rest := hr.suffix
  refine ⟨hd.trans hc, Cursor.offset_lt hc hd ?_, Nat.sub_le _ _⟩
  cases hr with
  | cons hn hs =>
    exact (hs.suffix.length_le.trans_lt (hn.length_lt_ahead hbook hne)).trans_le
      (skipBlank_suffix c.rest).length_le

theorem advances_take? (hbook : book.HasNoEmptyPhrase) (token : α → Token) (values : List α) :
    Advances source (take? book token values) fun found =>
      ∃ v, found = some v ∧ token v ≠ .endOfInput := by
  refine .of_yields hbook yields_take? fun found ls hfound hls => ?_
  obtain ⟨v, rfl, hv⟩ := hfound
  exact ⟨_, [], hls.2, by simpa using hv⟩

theorem advances_take (hbook : book.HasNoEmptyPhrase) (token : α → Token) (values : List α) :
    Advances source (take book token values) fun v => token v ≠ .endOfInput := by
  intro c v d hc h hv
  obtain ⟨found, c', hfound, h⟩ := bind_eq_ok.mp h
  cases found with
  | none => cases h
  | some u =>
    cases h
    exact advances_take? hbook token values hc hfound ⟨v, rfl, hv⟩

theorem advances_name (hbook : book.HasNoEmptyPhrase) :
    Advances source (name book) fun _ => True :=
  .of_yields hbook yields_name fun _ _ _ hls => ⟨_, [], hls, nofun⟩

theorem advances_quotation? (hbook : book.HasNoEmptyPhrase) :
    Advances source quotation? fun found => found ≠ none := by
  refine .of_yields hbook (yields_quotation?) fun found ls hfound hls => ?_
  cases found with
  | none => exact absurd rfl hfound
  | some contents => exact ⟨_, [], hls, nofun⟩

/-- A limit that is greater than what is left of the text is never used up, and it makes no
difference which one it is. -/
def Bounded (source : List Char) (R : Nat → Reader α) : Prop :=
  ∀ ⦃c n m⦄, c.rest <:+ source → c.rest.length < n → c.rest.length < m →
    R n c = R m c ∧ ∀ e s, R n c = .error e s → e.fault ≠ .stalled

end Reader

def Lockstep.same (book : Phrasebook) : Lockstep book where
  cursors := Eq
  places := Eq
  failures := Eq
  ahead := by rintro c _ rfl; rfl
  missed := by rintro c _ tokens rfl; rfl
  after? := by
    rintro c _ t rfl
    cases book.after? t c.ahead with
    | none => exact .none
    | some rest => exact .some rfl
  ahead_eq_nil := by rintro c _ rfl; rfl
  word := by rintro c _ rfl; rfl
  afterWord := by rintro c _ rfl; rfl
  quotation := by
    rintro c _ rfl
    cases quoted? c.ahead with
    | none => exact .none
    | some quoted => exact .some ⟨rfl, rfl⟩
  fail := by rintro rest _ fault rfl; rfl
  unexpected := by rintro c _ rfl; rfl

section

variable {book : Phrasebook} {source : List Char} {α : Type}

theorem Reader.bounded_of_places {R : Nat → Reader α} (hp : ∀ n, Places book source n (R n))
    (ha : ∀ n m, (Lockstep.same book).Agrees (R n) (R m)) : Bounded source R := by
  have hstalled {c : Cursor} {n : Nat} (hc : c.rest <:+ source) (hn : c.rest.length < n) :
      ∀ e s, R n c = .error e s → e.fault ≠ .stalled := by
    intro e s he
    have h := hp n hc hn
    rw [he] at h
    exact Failure.Placed.fault_ne_stalled h
  intro c n m hc hn hm
  refine ⟨?_, hstalled hc hn⟩
  have ht := ha n m (show (Lockstep.same book).cursors c c from rfl)
  generalize hx : R n c = x at ht
  generalize hy : R m c = y at ht
  cases ht with
  | ok h => rw [show _ = _ from h]
  | error he h => rw [show _ = _ from he, show _ = _ from h]
  | stalledLeft h => exact absurd h (hstalled hc hn _ _ hx)
  | stalledRight h => exact absurd h (hstalled hc hm _ _ hy)

theorem Program.bounded_readItems (hbook : book.HasNoEmptyPhrase) :
    Bounded source (readItems book) :=
  bounded_of_places (places_readItems hbook) agrees_readItems

theorem Statement.bounded_readBlock (hbook : book.HasNoEmptyPhrase) :
    Bounded source (readBlock book) :=
  bounded_of_places (places_readBlock hbook) agrees_readBlock

end

/-- Reading a source comes to an end: whatever is read moves the cursor on within the source, no
block and no program needs more rounds than there are characters left, and there is always a program
or something that is wrong. -/
structure ReadingEnds (book : Phrasebook) (source : String) : Prop where
  take : ∀ (α : Type) (token : α → Token) (values : List α),
    Advances source.toList (take book token values) fun v => token v ≠ .endOfInput
  name : Advances source.toList (name book) fun _ => True
  quotation : Advances source.toList quotation? fun found => found ≠ none
  readBlock : Bounded source.toList (Statement.readBlock book)
  readItems : Bounded source.toList (Program.readItems book)
  parse : (∃ p, parseWith book source = .ok p) ∨
    ∃ d, parseWith book source = .error d ∧ d.fault ≠ .stalled

theorem readingEnds_of_hasNoEmptyPhrase {book : Phrasebook} (hbook : book.HasNoEmptyPhrase)
    (source : String) : ReadingEnds book source where
  take _ := advances_take hbook
  name := advances_name hbook
  quotation := advances_quotation? hbook
  readBlock := Statement.bounded_readBlock hbook
  readItems := Program.bounded_readItems hbook
  parse := by
    cases h : parseWith book source with
    | ok p => exact .inl ⟨p, rfl⟩
    | error d =>
      obtain ⟨e, -, -, hp, rfl⟩ := placed_of_parseWith hbook h
      exact .inr ⟨_, rfl, hp.fault_ne_stalled⟩

/-- Blanks at the ends of a phrase and doubled ones, of which only the last phrase can be found. -/
theorem readingEnds_of_hasNoEmptyPhrase_blanks :
    Phrasebook.HasNoEmptyPhrase ⟨[⟨" ", .print⟩, ⟨"a  b", .comma⟩, ⟨"ja ", .trueWord⟩]⟩ ∧
      ReadingEnds ⟨[⟨" ", .print⟩, ⟨"a  b", .comma⟩, ⟨"ja ", .trueWord⟩]⟩ "\n ja  " := by
  have h : Phrasebook.HasNoEmptyPhrase
      ⟨[⟨" ", .print⟩, ⟨"a  b", .comma⟩, ⟨"ja ", .trueWord⟩]⟩ := by decide
  exact ⟨h, readingEnds_of_hasNoEmptyPhrase h _⟩

/-- At the end of the source empty phrases are found again and again. -/
example : parseWith ⟨[⟨"", .print⟩, ⟨"", .trueWord⟩]⟩ "" = .error ⟨.stalled, ⟨1, 0, 0⟩⟩ := by
  decide

end Wordy
