import Mathlib
import Wordy.Parse
import Wordy.Proofs.Grammar
import Wordy.Proofs.Offers

/-! What is read as an expression has the form that the grammar gives it, under any phrasebook, and
the binary operators are what it would have gone on with. -/

namespace Wordy

open Text Reader

/-- The failure names no token, and where it is that the text has ended it comes at the start. -/
def Failure.Bare (e : Failure) (start : List Char) : Prop :=
  (∀ expected, e.fault ≠ .unexpected expected) ∧ (e.fault = .endOfText → e.rest = start)

namespace Atom

theorem dropWhile_digits {whole fraction : List Char} (hw : ∀ c ∈ whole, c.isDigit = true)
    (hf : ∀ c ∈ fraction.head?, c.isDigit = false) :
    (whole ++ fraction).dropWhile Char.isDigit = fraction := by
  rw [List.dropWhile_append_of_pos hw]
  cases fraction with
  | nil => rfl
  | cons c fraction => exact List.dropWhile_cons_of_neg (by simp [hf c (by simp)])

theorem exists_sign (word : List Char) : ∃ sign, (sign = [] ∨ sign = ['-']) ∧
    word = sign ++ (if word.head? = some '-' then word.tail else word) := by
  by_cases hm : word.head? = some '-'
  · refine ⟨['-'], .inr rfl, ?_⟩
    rw [if_pos hm]
    exact (List.cons_head?_tail hm).symm
  · exact ⟨[], .inl rfl, by simp [hm]⟩

theorem isNumeral_of_isNumber {word : List Char} (h : isNumber word = true) : IsNumeral word := by
  obtain ⟨sign, hs, hw⟩ := exists_sign word
  rw [isNumber] at h
  generalize (if word.head? = some '-' then word.tail else word) = digits at h hw
  have hd : digits = digits.takeWhile Char.isDigit ++ digits.dropWhile Char.isDigit :=
    List.takeWhile_append_dropWhile.symm
  refine ⟨sign, digits.takeWhile Char.isDigit, digits.dropWhile Char.isDigit, by rw [← hd, hw],
    hs, fun c hc => List.mem_takeWhile_imp hc, ?_⟩
  split at h
  · next hn =>
    refine .inl ⟨hn, fun ht => ?_⟩
    rw [hn, ht] at hd
    simp [hd] at h
  · next fraction hf =>
    rw [Bool.and_eq_true, decide_eq_true_eq, List.all_eq_true] at h
    exact .inr ⟨fraction, hf, h⟩
  · cases h

theorem isNumber_of_isNumeral {word : List Char} (h : IsNumeral word) : isNumber word = true := by
  obtain ⟨sign, whole, fraction, rfl, hs, hw, hf⟩ := h
  have hh : ∀ c ∈ fraction.head?, c.isDigit = false := by
    rcases hf with ⟨rfl, -⟩ | ⟨digits, rfl, -⟩
    · simp
    · simp
  -- What follows the sign is not taken for a sign itself.
  have hm : (whole ++ fraction).head? ≠ some '-' := by
    intro he
    cases whole with
    | nil => rcases hf with ⟨rfl, hne⟩ | ⟨digits, rfl, -⟩ <;> simp_all
    | cons c whole =>
      obtain rfl : c = '-' := by simpa using he
      exact absurd (hw '-' List.mem_cons_self) (by decide)
  have hd : (if (sign ++ (whole ++ fraction)).head? = some '-'
      then (sign ++ (whole ++ fraction)).tail else sign ++ (whole ++ fraction)) =
      whole ++ fraction := by
    rcases hs with rfl | rfl
    · exact if_neg hm
    · rfl
  simp only [isNumber, hd, dropWhile_digits hw hh]
  rcases hf with ⟨rfl, hne⟩ | ⟨digits, rfl, hne, hall⟩
  · simpa using hne
  · simpa [hne] using hall

theorem isNumber_iff (word : List Char) : isNumber word = true ↔ IsNumeral word :=
  ⟨isNumeral_of_isNumber, isNumber_of_isNumeral⟩

theorem isReference_iff (word : List Char) : isReference word = true ↔ IsVariable word := by
  cases word with
  | nil => simp [isReference, IsVariable]
  | cons c more => simp [isReference, IsVariable, or_assoc]

theorem written_of_ofWord? {w : String} {a : Atom} (h : ofWord? w = some a) :
    a.Written (.word w) := by
  rw [ofWord?] at h
  split at h
  · next hn =>
    cases h
    exact .number ((isNumber_iff _).mp hn)
  · split at h
    · next hr =>
      cases h
      exact .reference ((isReference_iff _).mp hr)
    · cases h

variable {book : Phrasebook}

theorem yields_readWord :
    Yields book (readWord book) fun a ls => ∃ l, ls = [l] ∧ a.Written l := by
  unfold readWord
  refine yields_ahead.bind fun start ls hls => yields_name.bind fun w ms hms => ?_
  subst hls hms
  split
  · next a ha => exact .pure ⟨_, rfl, written_of_ofWord? ha⟩
  · exact .throw

theorem yields_read : Yields book (read book) fun a ls => ∃ l, ls = [l] ∧ a.Written l := by
  unfold read
  refine yields_take?.bind fun value ls hls => ?_
  cases value with
  | some value => exact .pure ⟨_, by simpa using hls.2, .truth⟩
  | none =>
    obtain rfl := hls
    refine yields_quotation?.bind fun contents ms hms => ?_
    cases contents with
    | some contents => exact .pure ⟨_, by simpa using hms, .text⟩
    | none =>
      obtain rfl := hms
      exact yields_readWord

theorem readWord_eq_error {c s : Cursor} {e : Failure} (h : readWord book c = .error e s) :
    e.Bare c.ahead := by
  unfold readWord at h
  rcases bind_eq_error.mp h with h | ⟨_, _, ha, h⟩
  · cases h
  · cases ha
    rcases bind_eq_error.mp h with h | ⟨w, d, -, h⟩
    · obtain ⟨hf, hr⟩ := name_eq_error h
      exact ⟨fun expected he => by simp [he] at hf, fun _ => hr⟩
    · cases hw : ofWord? w with
      | some a =>
        rw [hw] at h
        cases h
      | none =>
        rw [hw] at h
        cases h
        exact ⟨nofun, nofun⟩

/-- An atom of one phrase or in quotes is read at once; else it is left to the reader of words, for
which the truth values have been looked for in vain. -/
theorem read_cases (book : Phrasebook) (c : Cursor) :
    (∃ a rest, read book c = .ok a ⟨rest, []⟩) ∨
      read book c = readWord book ⟨c.rest, c.tried ++ [true, false].map truthToken⟩ := by
  unfold read
  rcases take?_cases book truthToken [true, false] c with
    ⟨value, rest, -, -, ht⟩ | ⟨-, ht⟩
  · rw [bind_of_ok ht]
    exact .inl ⟨_, rest, rfl⟩
  · rw [bind_of_ok ht]
    let d : Cursor := ⟨c.rest, c.tried ++ [true, false].map truthToken⟩
    cases hq : quoted? d.ahead with
    | some quoted =>
      have hquote := quotation?_eq_of_some hq
      simp only
      rw [bind_of_ok hquote]
      exact .inl ⟨_, _, rfl⟩
    | none =>
      have hquote := quotation?_eq_of_none hq
      simp only
      rw [bind_of_ok hquote]
      exact .inr rfl

/-- An atom is read by moving on, which clears what was tried. -/
theorem tried_of_read {c d : Cursor} {a : Atom} (h : read book c = .ok a d) : d.tried = [] := by
  rcases read_cases book c with ⟨b, rest, hread⟩ | hread
  · rw [hread] at h
    cases h
    rfl
  · rw [hread] at h
    obtain ⟨_, _, ha, h⟩ := bind_eq_ok.mp h
    obtain ⟨w, d', hn, h⟩ := bind_eq_ok.mp h
    obtain ⟨-, -, -, rfl⟩ := name_eq_ok hn
    cases hw : ofWord? w with
    | some b =>
      rw [hw] at h
      cases h
      rfl
    | none =>
      rw [hw] at h
      cases h

/-- Neither a truth value nor a quoted text is missing where a word is read in vain. -/
theorem read_eq_error {c s : Cursor} {e : Failure} (h : read book c = .error e s) :
    e.Bare c.ahead := by
  rcases read_cases book c with ⟨b, rest, hread⟩ | hread
  · rw [hread] at h
    cases h
  · rw [hread] at h
    have hbare := readWord_eq_error h
    exact hbare

end Atom

/-- A link and its lexemes, or the last atom and its own. -/
def Link.Written : Link ⊕ Atom → List Lexeme → Prop
  | .inl .negation, ls => ls = [.token .notWord]
  | .inl (.operation left operator), ls =>
    ∃ l, left.Written l ∧ ls = [l, .token operator.token]
  | .inr last, ls => ∃ l, last.Written l ∧ ls = [l]

variable {book : Phrasebook}

theorem Link.yields_read : Yields book (Link.read book) Link.Written := by
  unfold Link.read
  refine yields_accept.bind fun found ls hls => ?_
  cases found with
  | true => exact .pure (by simpa [Link.Written] using hls)
  | false =>
    obtain rfl : ls = [] := hls
    refine Atom.yields_read.bind fun left ms hms => ?_
    obtain ⟨l, rfl, hl⟩ := hms
    refine yields_take?.bind fun operator ns hns => ?_
    cases operator with
    | some operator => exact .pure ⟨l, hl, by simp [hns.2]⟩
    | none =>
      obtain rfl : ns = [] := hns
      exact .pure ⟨l, hl, rfl⟩

theorem Link.read_eq_error {c s : Cursor} {e : Failure} (h : Link.read book c = .error e s) :
    e.Bare c.ahead := by
  unfold Link.read at h
  rcases bind_eq_error.mp h with h | ⟨found, d, ha, h⟩
  · exact absurd h accept_ne_error
  · cases found with
    | true => cases h
    | false =>
      have hd : d.ahead = c.ahead := congrArg skipBlank (rest_of_accept_false ha)
      rcases bind_eq_error.mp h with h | ⟨a, d', -, h⟩
      · exact hd ▸ Atom.read_eq_error h
      · rcases bind_eq_error.mp h with h | ⟨operator, _, -, h⟩
        · exact absurd h take?_ne_error
        · cases operator <;> cases h

/-- After the last atom every operator has been looked for. -/
theorem Link.tried_of_read {c d : Cursor} {a : Atom} (h : Link.read book c = .ok (.inr a) d) :
    ∀ u ∈ d.tried, ∃ operator : BinaryOperator, u = operator.token := by
  unfold Link.read at h
  obtain ⟨found, c₁, -, h⟩ := bind_eq_ok.mp h
  cases found with
  | true => cases h
  | false =>
    obtain ⟨b, c₂, hb, h⟩ := bind_eq_ok.mp h
    have hc₂ := Atom.tried_of_read hb
    obtain ⟨operator, c₃, ho, h⟩ := bind_eq_ok.mp h
    rcases take?_cases book BinaryOperator.token BinaryOperator.all c₂ with
      ⟨o, rest, -, -, ht⟩ | ⟨-, ht⟩
    · rw [ht] at ho
      cases ho
      cases h
    · rw [ht] at ho
      cases ho
      cases h
      simp only [hc₂, List.nil_append, List.mem_map]
      rintro u ⟨o, -, rfl⟩
      exact ⟨o, rfl⟩

namespace Expression

theorem stated_x : (atom (.reference "x")).Stated [.word "x"] :=
  ⟨.atom (.reference ⟨'x', [], rfl, rfl, by simp⟩), Nat.zero_le _⟩

theorem written_apply {link : Link} {e : Expression} {ls ms : List Lexeme}
    (hl : Link.Written (.inl link) ls) (he : e.Written ms) : (link.apply e).Written (ls ++ ms) := by
  cases link with
  | negation =>
    obtain rfl := hl
    exact .negation he
  | operation left operator =>
    obtain ⟨l, hl, rfl⟩ := hl
    exact .binary hl he

theorem operators_ofChain (links : List Link) (last : Atom) :
    (ofChain links last).operators = links.length := by
  induction links with
  | nil => rfl
  | cons link links ih => cases link <;> simp [ofChain, Link.apply, operators, ← ih]

theorem yields_readChain (start : List Char) (limit : Nat) :
    Yields book (readChain book start limit) fun chain ls =>
      (ofChain chain.1 chain.2).Written ls ∧ chain.1.length ≤ limit := by
  induction limit with
  | zero =>
    unfold readChain
    refine Link.yields_read.bind fun next ls hls => ?_
    cases next with
    | inl link => exact .throw
    | inr last =>
      obtain ⟨l, hl, rfl⟩ := hls
      exact .pure ⟨.atom hl, Nat.le_refl 0⟩
  | succ limit ih =>
    unfold readChain
    refine Link.yields_read.bind fun next ls hls => ?_
    cases next with
    | inl link =>
      refine ih.bind fun chain ms hms => .pure ?_
      rw [List.append_nil]
      exact ⟨written_apply hls hms.1, Nat.succ_le_succ hms.2⟩
    | inr last =>
      obtain ⟨l, hl, rfl⟩ := hls
      exact .pure ⟨.atom hl, Nat.zero_le _⟩

theorem yields_read : Yields book (read book) Stated := by
  unfold read
  refine yields_ahead.bind fun start ls hls => ?_
  subst hls
  refine (yields_readChain start maxOperators).bind fun chain ms hms => .pure ?_
  rw [List.append_nil]
  exact ⟨hms.1, by rw [operators_ofChain]; exact hms.2⟩

theorem tried_of_readChain {start : List Char} {limit : Nat} {c d : Cursor}
    {chain : List Link × Atom} (h : readChain book start limit c = .ok chain d) :
    ∀ u ∈ d.tried, ∃ operator : BinaryOperator, u = operator.token := by
  induction limit generalizing c chain with
  | zero =>
    obtain ⟨next, c', hn, h⟩ := bind_eq_ok.mp h
    cases next with
    | inl link => cases h
    | inr last =>
      cases h
      exact Link.tried_of_read hn
  | succ limit ih =>
    obtain ⟨next, c', hn, h⟩ := bind_eq_ok.mp h
    cases next with
    | inl link =>
      obtain ⟨more, d', hm, h⟩ := bind_eq_ok.mp h
      cases h
      exact ih hm
    | inr last =>
      cases h
      exact Link.tried_of_read hn

/-- Where the text ends within a chain, an atom is missing. -/
theorem readChain_eq_error {start : List Char} {limit : Nat} {c s : Cursor} {e : Failure}
    (h : readChain book start limit c = .error e s) :
    (∀ expected, e.fault ≠ .unexpected expected) ∧ (e.fault = .endOfText →
      ∃ ls mid x, Reads book ls c.rest mid ∧ e.rest = skipBlank mid ∧
        Expression.Written x (ls ++ [.word "x"]) ∧ x.operators ≤ limit) := by
  have hbare {c : Cursor} {limit : Nat} (h : Link.read book c = .error e s) :
      (∀ expected, e.fault ≠ .unexpected expected) ∧ (e.fault = .endOfText →
        ∃ ls mid x, Reads book ls c.rest mid ∧ e.rest = skipBlank mid ∧
          Expression.Written x (ls ++ [.word "x"]) ∧ x.operators ≤ limit) := by
    obtain ⟨hu, he⟩ := Link.read_eq_error h
    exact ⟨hu, fun hf => ⟨[], c.rest, _, .nil, he hf, stated_x.1, Nat.zero_le limit⟩⟩
  induction limit generalizing c with
  | zero =>
    rcases bind_eq_error.mp h with h | ⟨next, c', -, h⟩
    · exact hbare h
    · cases next with
      | inl link =>
        cases h
        exact ⟨nofun, nofun⟩
      | inr last => cases h
  | succ limit ih =>
    rcases bind_eq_error.mp h with h | ⟨next, c', hn, h⟩
    · exact hbare h
    · cases next with
      | inl link =>
        rcases bind_eq_error.mp h with h | ⟨_, _, -, h⟩
        · obtain ⟨hu, he⟩ := ih h
          refine ⟨hu, fun hf => ?_⟩
          obtain ⟨ms, mid, x, hm, hrest, hx, hle⟩ := he hf
          obtain ⟨ls, hw, hl⟩ := Link.yields_read hn
          refine ⟨ls ++ ms, mid, link.apply x, hl.append hm, hrest, ?_, ?_⟩
          · rw [List.append_assoc]
            exact written_apply hw hx
          · cases link <;> exact Nat.succ_le_succ hle
        · cases h
      | inr last => cases h

theorem Written.append_operator {e : Expression} {ls : List Lexeme} (h : e.Written ls)
    (o : BinaryOperator) :
    ∃ x : Expression, x.Written (ls ++ [.token o.token, .word "x"]) ∧
      x.operators = e.operators + 1 := by
  induction h with
  | atom h => exact ⟨_, .binary h stated_x.1, rfl⟩
  | negation _ ih =>
    obtain ⟨x, hx, ho⟩ := ih
    exact ⟨_, .negation hx, congrArg (· + 1) ho⟩
  | binary ha _ ih =>
    obtain ⟨x, hx, ho⟩ := ih
    exact ⟨_, .binary ha hx, congrArg (· + 1) ho⟩

theorem Stated.offer {e : Expression} {ls : List Lexeme} (h : e.Stated ls) (o : BinaryOperator) :
    Offer Stated ls o.token := by
  by_cases hfull : e.operators = maxOperators
  · have hopen : Open Stated ls := ⟨e, [], filler_nil, by simpa using h⟩
    exact .inr ⟨hopen, [], ls, e, o, rfl, h.1, hfull, rfl⟩
  · obtain ⟨x, hx, ho⟩ := h.1.append_operator o
    have hlt := Nat.lt_of_le_of_ne h.2 hfull
    exact .inl ⟨x, [.word "x"], by simp, hx, by omega⟩

theorem offers_read : Offers book (read book) Stated Stated where
  ok := by
    intro c e d h
    obtain ⟨ls, hs, hl⟩ := yields_read h
    refine ⟨ls, hs, hl, fun u hu => ?_⟩
    obtain ⟨_, _, ha, h⟩ := bind_eq_ok.mp h
    obtain ⟨chain, d', hc, h⟩ := bind_eq_ok.mp h
    cases h
    obtain ⟨o, rfl⟩ := tried_of_readChain hc u hu
    exact .inr (hs.offer o)
  unexpected := by
    intro c expected rest s h
    rcases bind_eq_error.mp h with h | ⟨_, _, -, h⟩
    · cases h
    · rcases bind_eq_error.mp h with h | ⟨_, _, -, h⟩
      · exact absurd rfl ((readChain_eq_error h).1 expected)
      · cases h
  endOfText := by
    intro c rest s h
    rcases bind_eq_error.mp h with h | ⟨_, _, ha, h⟩
    · cases h
    · cases ha
      rcases bind_eq_error.mp h with h | ⟨_, _, -, h⟩
      · obtain ⟨ls, mid, x, hl, hrest, hx, hle⟩ := (readChain_eq_error h).2 rfl
        exact ⟨ls, mid, hl, hrest, x, [.word "x"], by simp, hx, hle⟩
      · cases h

end Expression

end Wordy
