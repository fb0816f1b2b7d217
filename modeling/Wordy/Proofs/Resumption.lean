import Mathlib
import Wordy.Proofs.Alternatives
import Wordy.Proofs.Progress

/-! Parsing from a cursor that calls and earlier parses have left somewhere in the source. Only what
lies after the cursor counts: the program is that of the text that is left, and so is what is wrong
with it, at a place that is further on by the offset of the cursor. The tokens that the cursor
remembers are seen only in a report of unexpected tokens at the very place where the parse began. -/

namespace Wordy

open Text Reader

/-- What a parse from the cursor comes to, and the cursor after it, from which the next one goes
on. -/
def parseFrom (book : Phrasebook) (source : List Char) (c : Cursor) :
    Except Diagnostic Program × Cursor :=
  match Program.read book c with
  | .ok p d => (.ok p, d)
  | .error e d => (.error (e.locate source), d)

/-- What so many parses come to, one after another. -/
def parseTimes (book : Phrasebook) (source : List Char) :
    Nat → Cursor → List (Except Diagnostic Program)
  | 0, _ => []
  | n + 1, c => (parseFrom book source c).1 :: parseTimes book source n (parseFrom book source c).2

/-- The cursors to which calls and parses lead from the start of the source. -/
inductive Cursor.Reachable (book : Phrasebook) (source : List Char) : Cursor → Prop
  | start : Reachable book source (.start source)
  | call {c : Cursor} (h : Reachable book source c) (call : Call) :
      Reachable book source (call.run book source c).2
  | parse {c : Cursor} (h : Reachable book source c) :
      Reachable book source (parseFrom book source c).2

/-- The report of a parse from the cursor `c` beside that of a parse of the text that is left there.
If the parse has `moved` on from there before it fails, it has forgotten what was tried earlier. -/
structure Diagnostic.Extends (book : Phrasebook) (source : List Char) (c : Cursor) (moved : Prop)
    (d fresh : Diagnostic) : Prop where
  offset : d.position.offset = c.offset source + fresh.position.offset
  line_and_column : d.position = (LineTable.ofText source).position d.position.offset
  same : moved ∨ (∀ forms, fresh.fault ≠ .unexpected forms) → d.fault = fresh.fault
  merged : ¬ moved → ∀ forms, fresh.fault = .unexpected forms →
    ∃ all, d.fault = .unexpected all ∧ (all.Pairwise fun a b => utf8 a < utf8 b) ∧
      (∀ form, form ∈ all ↔ form ∈ forms ∨ ∃ t ∈ c.tried, book.Shows t form) ∧
      d.fault.message = "Expected: " ++ " | ".intercalate all ++ "."

/-- The outcome of a parse from the cursor `c` beside that of a parse of the text that is left. -/
inductive Continues (book : Phrasebook) (source : List Char) (c : Cursor) :
    Except Diagnostic Program → Except Diagnostic Program × Cursor → Prop
  | ok {p : Program} {after : Cursor} : Continues book source c (.ok p) (.ok p, after)
  | error {fresh d : Diagnostic} {after : Cursor}
      (moved_iff : after.rest ≠ c.rest ↔
        ∃ opening ∈ Program.Opening.all, (book.after? opening.token c.ahead).isSome = true)
      (h : d.Extends book source c (after.rest ≠ c.rest) fresh) :
      Continues book source c (.error fresh) (.error d, after)

/-- One run that stays within a text. -/
def Lockstep.within (book : Phrasebook) (text : List Char) : Lockstep book where
  __ := Lockstep.same book
  cursors c d := c = d ∧ c.rest <:+ text
  ahead := by rintro c _ ⟨rfl, -⟩; rfl
  missed := by rintro c _ tokens ⟨rfl, h⟩; exact ⟨rfl, h⟩
  after? := by
    rintro c _ t ⟨rfl, h⟩
    cases ha : book.after? t c.ahead with
    | none => exact .none
    | some rest =>
      exact .some ⟨rfl, (Phrasebook.after?_suffix ha).trans ((ahead_suffix c).trans h)⟩
  ahead_eq_nil := by rintro c _ ⟨rfl, -⟩; rfl
  word := by rintro c _ ⟨rfl, -⟩; rfl
  afterWord := by
    rintro c _ ⟨rfl, h⟩
    exact ⟨rfl, (afterWord_suffix c.ahead).trans ((ahead_suffix c).trans h)⟩
  quotation := by
    rintro c _ ⟨rfl, h⟩
    cases hq : quoted? c.ahead with
    | none => exact .none
    | some found =>
      have hn : (Lexeme.quotation (.ofList found.1)).Next book c.rest (skipBlank found.2) :=
        .quotation hq
      exact .some ⟨rfl, rfl, hn.suffix.trans h⟩
  unexpected := by rintro c _ ⟨rfl, -⟩; rfl

namespace Lockstep

variable {book : Phrasebook} {text : List Char} {α : Type} {R : Reader α} {c d : Cursor}

theorem suffix_of_ok {a : α} (hR : (within book text).Agrees R R) (hc : c.rest <:+ text)
    (h : R c = .ok a d) : d.rest <:+ text := by
  have ht := hR (c := c) ⟨rfl, hc⟩
  rw [h] at ht
  cases ht with
  | ok h => exact h.2

theorem suffix_of_error {e : Failure} (hR : (within book text).Agrees R R) (hc : c.rest <:+ text)
    (h : R c = .error e d) (hne : e.fault ≠ .stalled) : d.rest <:+ text := by
  have ht := hR (c := c) ⟨rfl, hc⟩
  rw [h] at ht
  cases ht with
  | error _ h => exact h.2
  | stalledLeft h => exact absurd h hne
  | stalledRight h => exact absurd h hne

end Lockstep

namespace Program

variable {book : Phrasebook} {c d : Cursor} {opening : Opening} {rest : List Char}

theorem Opening.token_ne (h : opening ≠ .finish) : opening.token ≠ .endOfInput := by
  cases opening with
  | statement opening => exact opening.token_ne_endOfInput
  | function => decide
  | finish => exact absurd rfl h

theorem read_eq (c : Cursor) :
    read book c = (readItems book (c.rest.length + 1) >>= fun items => pure ⟨items⟩) c := rfl

theorem placed_of_read (hbook : book.HasNoEmptyPhrase) {e : Failure}
    (h : read book c = .error e d) : e.Placed book c.rest := by
  have hp := places_read hbook (c := c) (List.suffix_refl c.rest) (Nat.lt_succ_self _)
  rwa [h] at hp

theorem suffix_of_read (hbook : book.HasNoEmptyPhrase) (source : List Char) (c : Cursor) :
    (parseFrom book source c).2.rest <:+ c.rest := by
  rw [parseFrom]
  cases h : read book c with
  | ok p d => exact Lockstep.suffix_of_ok agrees_read (List.suffix_refl c.rest) h
  | error e d =>
    exact Lockstep.suffix_of_error agrees_read (List.suffix_refl c.rest) h
      (placed_of_read hbook h).fault_ne_stalled

theorem read_of_none
    (h : ∀ opening ∈ Opening.all, book.after? opening.token c.ahead = none) :
    read book c =
      .error ⟨.unexpected (book.forms (c.tried ++ Opening.all.map Opening.token)), c.ahead⟩
        ⟨c.rest, c.tried ++ Opening.all.map Opening.token⟩ := by
  have htake := take_eq_of_none (take?_eq_of_none h)
  rw [read_eq]
  exact bind_eq_error.mpr (.inl (bind_eq_error.mpr (.inl htake)))

/-- Where an item begins, what was tried earlier makes no difference. -/
theorem read_of_first (h : (book.first c.ahead Opening.token Opening.all).2 = some (opening, rest))
    (tried : List Token) : read book ⟨c.rest, tried⟩ = read book c := by
  have htake : take book Opening.token Opening.all c = .ok opening ⟨rest, []⟩ :=
    take_eq_of_some (take?_eq_of_some h)
  have htake' : take book Opening.token Opening.all ⟨c.rest, tried⟩ = .ok opening ⟨rest, []⟩ :=
    take_eq_of_some (take?_eq_of_some h)
  rw [read_eq, read_eq, readItems]
  simp only [bind_assoc]
  rw [bind_of_ok htake, bind_of_ok htake']

/-- Behind the opening of an item the parse stays behind it. -/
theorem suffix_of_first (hbook : book.HasNoEmptyPhrase)
    (h : (book.first c.ahead Opening.token Opening.all).2 = some (opening, rest)) {e : Failure}
    (hread : read book c = .error e d) : opening ≠ .finish ∧ d.rest <:+ rest := by
  have htake : take book Opening.token Opening.all c = .ok opening ⟨rest, []⟩ :=
    take_eq_of_some (take?_eq_of_some h)
  have hne := (placed_of_read hbook hread).fault_ne_stalled
  have hitems : (Lockstep.within book rest).Agrees (readItems book c.rest.length)
      (readItems book c.rest.length) := agrees_readItems _ _
  have hblock : (Lockstep.within book rest).Agrees (Statement.readBlock book c.rest.length)
      (Statement.readBlock book c.rest.length) := Statement.agrees_readBlock _ _
  -- Behind the opening all readers stay within what it has left over.
  rw [read_eq, readItems] at hread
  simp only [bind_assoc] at hread
  rw [bind_of_ok htake] at hread
  cases opening with
  | finish => cases hread
  | function =>
    simp only [bind_assoc, pure_bind] at hread
    have hrun := (Function.agrees_read hblock).bind fun first => hitems.bind fun items =>
      .pure (a := (⟨.function first :: items⟩ : Program))
    exact ⟨nofun, Lockstep.suffix_of_error hrun (List.suffix_refl rest) hread hne⟩
  | statement opening =>
    simp only [bind_assoc, pure_bind] at hread
    have hrun := (Statement.agrees_read hblock opening).bind fun first => hitems.bind fun items =>
      .pure (a := (⟨.statement first :: items⟩ : Program))
    exact ⟨nofun, Lockstep.suffix_of_error hrun (List.suffix_refl rest) hread hne⟩

theorem cursor_of_readItems {limit : Nat} {items : List Item}
    (h : readItems book limit c = .ok items d) : d = ⟨[], []⟩ := by
  induction limit generalizing c items with
  | zero => cases h
  | succ limit ih =>
    obtain ⟨opening, c', htake, h⟩ := bind_eq_ok.mp h
    cases opening with
    | finish =>
      cases h
      rcases take?_cases book Opening.token Opening.all c with ⟨o, rest, -, ha, ht⟩ | ⟨-, ht⟩
      · rw [take_eq_of_some ht] at htake
        cases htake
        rw [(Phrasebook.after?_endOfInput.mp ha).2]
      · rw [take_eq_of_none ht] at htake
        cases htake
    | function =>
      obtain ⟨first, c'', -, h⟩ := bind_eq_ok.mp h
      obtain ⟨rest, d', hrest, h⟩ := bind_eq_ok.mp h
      cases h
      exact ih hrest
    | statement opening =>
      obtain ⟨first, c'', -, h⟩ := bind_eq_ok.mp h
      obtain ⟨rest, d', hrest, h⟩ := bind_eq_ok.mp h
      cases h
      exact ih hrest

theorem cursor_of_read {p : Program} (h : read book c = .ok p d) : d = ⟨[], []⟩ := by
  obtain ⟨items, d', hitems, h⟩ := bind_eq_ok.mp (h.symm.trans (read_eq c)).symm
  cases h
  exact cursor_of_readItems hitems

theorem read_of_nil (hbook : book.HasNoEmptyPhrase) :
    read book ⟨[], []⟩ = .ok ⟨[]⟩ ⟨[], []⟩ := by
  have hnone : ∀ opening ∈ Wordy.Opening.all.map Opening.statement ++ [.function],
      book.after? (Opening.token opening) [] = none := by
    intro opening hm
    have hne : opening.token ≠ .endOfInput := Opening.token_ne (by rintro rfl; simp at hm)
    cases ha : book.after? opening.token [] with
    | none => rfl
    | some rest => exact absurd (hbook.length_lt hne ha) (Nat.not_lt_zero _)
  have hfirst : (book.first (Cursor.ahead ⟨[], []⟩) Opening.token Opening.all).2 =
      some (.finish, []) := by
    have hall : Opening.all = (Wordy.Opening.all.map .statement ++ [.function]) ++ [.finish] := by
      simp [Opening.all]
    rw [hall]
    exact congrArg Prod.snd (Phrasebook.first_append_cons hnone rfl)
  rw [read_eq, readItems]
  simp only [bind_assoc]
  rw [bind_of_ok (take_eq_of_some (take?_eq_of_some hfirst))]
  rfl

end Program

theorem parseTimes_of_nil {book : Phrasebook} (hbook : book.HasNoEmptyPhrase) (source : List Char)
    (n : Nat) : parseTimes book source n ⟨[], []⟩ = List.replicate n (.ok ⟨[]⟩) := by
  have hparse : parseFrom book source ⟨[], []⟩ = (.ok ⟨[]⟩, ⟨[], []⟩) := by
    rw [parseFrom, Program.read_of_nil hbook]
  induction n with
  | zero => rfl
  | succ n ih => rw [parseTimes, hparse, ih, List.replicate_succ]

theorem Cursor.Reachable.suffix {book : Phrasebook} {source : List Char} {c : Cursor}
    (hbook : book.HasNoEmptyPhrase) (h : c.Reachable book source) : c.rest <:+ source := by
  induction h with
  | start => exact List.suffix_refl source
  | call _ call ih => exact (Call.run_suffix call).trans ih
  | parse _ ih => exact (Program.suffix_of_read hbook source _).trans ih

namespace Failure

variable {source : List Char} {c : Cursor} {e : Failure}

/-- Seen from the whole source a place is further on by the offset of the cursor. -/
theorem offset_locate (hc : c.rest <:+ source) (he : e.rest <:+ c.rest) :
    (e.locate source).position.offset =
      c.offset source + (e.locate c.rest).position.offset := by
  obtain ⟨before, hbefore⟩ := hc
  obtain ⟨passed, hpassed⟩ := he
  have hsource := congrArg byteLength hbefore
  have hrest := congrArg byteLength hpassed
  rw [byteLength_append] at hsource hrest
  change byteLength source - byteLength e.rest =
    byteLength source - byteLength c.rest + (byteLength c.rest - byteLength e.rest)
  omega

end Failure

section

variable {book : Phrasebook} {source : List Char} {c : Cursor}

theorem continues_of_none (hc : c.rest <:+ source)
    (hnone : ∀ opening ∈ Program.Opening.all, book.after? opening.token c.ahead = none) :
    Continues book source c (parseWith book (.ofList c.rest)) (parseFrom book source c) := by
  have hfresh : Program.read book (.start c.rest) = _ :=
    Program.read_of_none (c := .start c.rest) hnone
  rw [parseWith_of_error (by rw [String.toList_ofList]; exact hfresh), parseFrom,
    Program.read_of_none hnone]
  refine .error (iff_of_false (by simp) ?_) ⟨?_, rfl, ?_, ?_⟩
  · rintro ⟨opening, hm, hsome⟩
    simp [hnone opening hm] at hsome
  · rw [String.toList_ofList]
    exact Failure.offset_locate hc (ahead_suffix c)
  · rintro (hmoved | hother)
    · exact absurd rfl hmoved
    · exact absurd rfl (hother _)
  · rintro - forms hforms
    refine ⟨_, rfl, book.pairwise_forms _, fun form => ?_, rfl⟩
    obtain rfl := Fault.unexpected.inj hforms
    simp only [Cursor.start, List.nil_append, Phrasebook.mem_forms, List.mem_append, or_and_right,
      exists_or, Phrasebook.form_eq_iff]
    exact or_comm

theorem continues_of_first (hbook : book.HasNoEmptyPhrase) (hc : c.rest <:+ source)
    {opening : Program.Opening} {rest : List Char}
    (hfirst : (book.first c.ahead Program.Opening.token Program.Opening.all).2 =
      some (opening, rest)) :
    Continues book source c (parseWith book (.ofList c.rest)) (parseFrom book source c) := by
  have hfresh : Program.read book (.start c.rest) = Program.read book c :=
    Program.read_of_first hfirst []
  rw [parseFrom]
  cases hread : Program.read book c with
  | ok p d =>
    rw [parseWith_of_ok (by rw [String.toList_ofList, hfresh, hread])]
    exact .ok
  | error e d =>
    obtain ⟨hm, ha⟩ := Phrasebook.mem_of_first_eq_some hfirst
    obtain ⟨hne, hsuffix⟩ := Program.suffix_of_first hbook hfirst hread
    -- The opening is not empty, so the parse has moved on and forgotten what was tried earlier.
    have hmoved : d.rest ≠ c.rest := by
      have hlt := hbook.length_lt (Program.Opening.token_ne hne) ha
      have hle := hsuffix.length_le
      have hahead := (ahead_suffix c).length_le
      intro heq
      rw [heq] at hle
      omega
    rw [parseWith_of_error (by rw [String.toList_ofList, hfresh, hread]), String.toList_ofList]
    refine .error (iff_of_true hmoved ⟨opening, hm, by rw [ha]; rfl⟩) ⟨?_, rfl, fun _ => rfl, ?_⟩
    · exact Failure.offset_locate hc (Program.placed_of_read hbook hread).suffix
    · intro hstays
      exact absurd hmoved hstays

end

/-- A parse from a cursor that calls and parses have left in the source comes to what a parse of the
text after it comes to. Once there is a program, all that is left to parse is an empty one. -/
theorem continues_of_reachable {book : Phrasebook} (hbook : book.HasNoEmptyPhrase)
    {source : String} {c : Cursor} (hc : c.Reachable book source.toList) :
    Continues book source.toList c (parseWith book (.ofList c.rest))
        (parseFrom book source.toList c) ∧
      ∀ p n, (parseFrom book source.toList c).1 = .ok p →
        parseTimes book source.toList n (parseFrom book source.toList c).2 =
          List.replicate n (.ok ⟨[]⟩) := by
  refine ⟨?_, fun p n hp => ?_⟩
  · cases hfirst : (book.first c.ahead Program.Opening.token Program.Opening.all).2 with
    | none => exact continues_of_none (hc.suffix hbook) (Phrasebook.after?_eq_none_of_first hfirst)
    | some found => exact continues_of_first hbook (hc.suffix hbook) hfirst
  · rw [parseFrom] at hp ⊢
    cases hread : Program.read book c with
    | ok q d =>
      rw [Program.cursor_of_read hread]
      exact parseTimes_of_nil hbook source.toList n
    | error e d =>
      rw [hread] at hp
      cases hp

/-- The first parse fails at a name, before which it has tried the operators. The second one begins
there and reports them too, though no operator can begin a program. -/
theorem continues_of_reachable_banana :
    let source := "print 1\n  banana"
    let c := (parseFrom .standard source.toList (.start source.toList)).2
    Phrasebook.standard.HasNoEmptyPhrase ∧ c.Reachable .standard source.toList ∧
      c.rest = "banana".toList ∧ .plus ∈ c.tried ∧
      Continues .standard source.toList c (parseWith .standard (.ofList c.rest))
        (parseFrom .standard source.toList c) := by
  intro source c
  have hc : c.Reachable .standard source.toList := .parse .start
  have hrest : c.rest = "banana".toList ∧ .plus ∈ c.tried := by decide +kernel
  exact ⟨Phrasebook.standard_hasNoEmptyPhrase, hc, hrest.1, hrest.2,
    (continues_of_reachable Phrasebook.standard_hasNoEmptyPhrase hc).1⟩

end Wordy
