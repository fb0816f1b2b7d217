import Mathlib
import Wordy.Proofs.Calls
import Wordy.Proofs.Expected

/-! Reading by byte offsets. A scanner knows of its place in the source only the byte offset, adds
to it the sizes of the characters that it passes, and cuts all that it looks at out of the source
between two offsets. A cut past the end or inside a character has no result. No call ever asks for
one: what the scanner reads, and where it stands after it, is what the readers do with the text that
is left. -/

namespace Wordy

open Text

namespace ByteScan

/-- The text before so many bytes and the text after them, where these end with a character. -/
def split? : Nat → List Char → Option (List Char × List Char)
  | 0, s => some ([], s)
  | _ + 1, [] => none
  | n + 1, c :: s =>
    if c.utf8Size ≤ n + 1 then (split? (n + 1 - c.utf8Size) s).map (Prod.map (c :: ·) id) else none

/-- The source from an offset on. -/
def from? (source : List Char) (start : Nat) : Option (List Char) :=
  (split? start source).map (·.2)

/-- The source between two offsets. -/
def slice? (source : List Char) (start stop : Nat) : Option (List Char) :=
  if start ≤ stop then
    (from? source start).bind fun s => (split? (stop - start) s).map (·.1)
  else none

/-- How many bytes stand before the first character with the property. -/
def find? (p : Char → Bool) : List Char → Option Nat
  | [] => none
  | c :: s => if p c then some 0 else (find? p s).map (· + c.utf8Size)

/-- The offset of the first character with the property from an offset on, or that of the end. -/
def seek? (source : List Char) (p : Char → Bool) (start : Nat) : Option Nat :=
  (from? source start).map fun s =>
    match find? p s with
    | some n => start + n
    | none => byteLength source

/-- Where the next word after the phrase starts, if the phrase stands at the offset. -/
def phrase? (source : List Char) : List Char → Nat → Option (Option Nat)
  | [], offset => do
    match ← from? source offset with
    | [] => return some offset
    | c :: _ => if isBlank c then return some (← seek? source (!isBlank ·) offset) else return none
  | p :: phrase, offset =>
    if p = ' ' then do
      let next ← seek? source (!isBlank ·) offset
      if next = offset then return none else phrase? source phrase next
    else do
      match ← from? source offset with
      | [] => return none
      | c :: _ =>
        if lower c = [p] then phrase? source phrase (offset + c.utf8Size) else return none

def token? (book : Phrasebook) (source : List Char) (offset : Nat) (t : Token) :
    Option (Option Nat) :=
  if t = .endOfInput then
    some (if offset = byteLength source then some offset else none)
  else
    match book.phrase? t with
    | some phrase => phrase? source phrase.toList offset
    | none => some none

/-- The tokens that are missed at the offset, and the first one that is not. -/
def first? (book : Phrasebook) (source : List Char) (offset : Nat) :
    List Token → Option (List Token × Option (Token × Nat))
  | [] => some ([], none)
  | t :: tokens => do
    match ← token? book source offset t with
    | some next => return ([], some (t, next))
    | none =>
      let (missed, found) ← first? book source offset tokens
      return (t :: missed, found)

/-- The byte offset of the cursor, and the tokens that were missed since it moved. -/
structure Mark where
  offset : Nat
  tried : List Token
deriving DecidableEq, Repr

def failure (source : List Char) (fault : Fault) (offset : Nat) : Answer :=
  .failure ⟨fault, (LineTable.ofText source).position offset⟩

def name? (book : Phrasebook) (source : List Char) (m : Mark) : Option (Answer × Mark) := do
  let start ← seek? source (!isBlank ·) m.offset
  if start = byteLength source then
    return (failure source .endOfText start, m)
  else
    let stop ← seek? source isBlank start
    let w ← slice? source start stop
    if book.isReserved w then
      return (failure source (.reserved (.ofList w)) start, m)
    else
      return (.text (.ofList w), ⟨← seek? source (!isBlank ·) stop, []⟩)

def quotation? (source : List Char) (m : Mark) : Option (Answer × Mark) := do
  let start ← seek? source (!isBlank ·) m.offset
  match ← from? source start with
  | [] => return (.nothing, m)
  | quote :: _ =>
    if Reader.isQuote quote then
      let bodyStart := start + quote.utf8Size
      match find? (· == quote) (← from? source bodyStart) with
      | none => return (.nothing, m)
      | some n =>
        let bodyStop := bodyStart + n
        let contents ← slice? source bodyStart bodyStop
        return (.text (.ofList contents),
          ⟨← seek? source (!isBlank ·) (bodyStop + quote.utf8Size), []⟩)
    else
      return (.nothing, m)

def run? (book : Phrasebook) (source : List Char) : Call → Mark → Option (Answer × Mark)
  | .peek tokens, m => do
    let start ← seek? source (!isBlank ·) m.offset
    let (missed, found) ← first? book source start tokens
    return (.ofToken (found.map (·.1)), ⟨m.offset, m.tried ++ missed⟩)
  | .extract tokens, m => do
    let start ← seek? source (!isBlank ·) m.offset
    match ← first? book source start tokens with
    | (_, some (t, next)) => return (.token t, ⟨next, []⟩)
    | (missed, none) =>
      let tried := m.tried ++ missed
      return (failure source (.unexpected (book.forms tried)) start, ⟨m.offset, tried⟩)
  | .name, m => name? book source m
  | .quotation, m => quotation? source m

def runAll? (book : Phrasebook) (source : List Char) :
    List Call → Mark → Option (List Answer × Mark)
  | [], m => some ([], m)
  | call :: calls, m => do
    let (answer, m) ← run? book source call m
    let (answers, m) ← runAll? book source calls m
    return (answer :: answers, m)

/-! ### Cuts -/

theorem split?_eq_some_iff {n : Nat} {s before after : List Char} :
    split? n s = some (before, after) ↔ s = before ++ after ∧ byteLength before = n := by
  fun_induction split? n s generalizing before with
  | case1 s =>
    constructor
    · rintro ⟨⟩
      exact ⟨rfl, rfl⟩
    · rintro ⟨rfl, hlength⟩
      have hnil : before = [] := by
        by_contra hne
        have := byteLength_pos hne
        omega
      simp [hnil]
  | case2 n =>
    constructor
    · rintro ⟨⟩
    · rintro ⟨hs, hlength⟩
      simp [(List.append_eq_nil_iff.mp hs.symm).1] at hlength
  | case3 n c s hle ih =>
    rw [Option.map_eq_some_iff]
    constructor
    · rintro ⟨⟨b, a⟩, hsplit, ⟨⟩⟩
      obtain ⟨rfl, hlength⟩ := ih.mp hsplit
      refine ⟨rfl, ?_⟩
      rw [byteLength_cons]
      omega
    · rintro ⟨hs, hlength⟩
      cases before with
      | nil => simp at hlength
      | cons d before =>
        obtain ⟨rfl, rfl⟩ := List.cons.inj hs
        rw [byteLength_cons] at hlength
        exact ⟨(before, after), ih.mpr ⟨rfl, by omega⟩, rfl⟩
  | case4 n c s hle =>
    constructor
    · rintro ⟨⟩
    · rintro ⟨hs, hlength⟩
      cases before with
      | nil => simp at hlength
      | cons d before =>
        obtain ⟨rfl, -⟩ := List.cons.inj hs
        rw [byteLength_cons] at hlength
        omega

/-- The source can be cut exactly at the boundaries of its characters. -/
theorem isSome_from?_iff {source : String} {n : Nat} :
    (from? source.toList n).isSome = true ↔ (⟨n⟩ : String.Pos.Raw).IsValid source := by
  have hsplit : (from? source.toList n).isSome = true ↔
      ∃ before after, source.toList = before ++ after ∧ byteLength before = n := by
    rw [from?, Option.isSome_map, Option.isSome_iff_exists]
    constructor
    · rintro ⟨⟨before, after⟩, h⟩
      exact ⟨before, after, split?_eq_some_iff.mp h⟩
    · rintro ⟨before, after, h⟩
      exact ⟨(before, after), split?_eq_some_iff.mpr h⟩
  rw [hsplit, String.Pos.Raw.isValid_iff_exists_append]
  constructor
  · rintro ⟨before, after, hs, hlength⟩
    refine ⟨.ofList before, .ofList after, ?_, ?_⟩
    · rw [← String.ofList_append, ← hs, String.ofList_toList]
    · rw [String.rawEndPos, ← byteLength_toList, String.toList_ofList, hlength]
  · rintro ⟨before, after, rfl, hend⟩
    refine ⟨before.toList, after.toList, String.toList_append, ?_⟩
    rw [byteLength_toList]
    exact (congrArg String.Pos.Raw.byteIdx hend).symm

def offsetOf (source rest : List Char) : Nat := byteLength source - byteLength rest

section

variable {source s t w : List Char} {c : Char}

theorem offsetOf_append (before rest : List Char) :
    offsetOf (before ++ rest) rest = byteLength before := by
  rw [offsetOf, byteLength_append, Nat.add_sub_cancel]

theorem offsetOf_of_append (h : w ++ t <:+ source) :
    offsetOf source t = offsetOf source (w ++ t) + byteLength w := by
  obtain ⟨before, rfl⟩ := h
  rw [offsetOf_append, ← List.append_assoc, offsetOf_append, byteLength_append]

theorem offsetOf_cons (h : c :: s <:+ source) :
    offsetOf source s = offsetOf source (c :: s) + c.utf8Size := by
  simpa using offsetOf_of_append (w := [c]) h

theorem offsetOf_nil : offsetOf source [] = byteLength source := rfl

theorem offsetOf_inj (hs : s <:+ source) (ht : t <:+ source) :
    offsetOf source s = offsetOf source t ↔ s = t := by
  refine ⟨fun h => ?_, fun h => by rw [h]⟩
  have hsize : byteLength s = byteLength t := by
    obtain ⟨b, hb⟩ := hs
    obtain ⟨b', hb'⟩ := ht
    have hlength := congrArg byteLength hb
    have hlength' := congrArg byteLength hb'
    rw [byteLength_append] at hlength hlength'
    rw [offsetOf, offsetOf] at h
    omega
  -- Of two suffixes one is a suffix of the other, and what stands between them has no bytes.
  rcases List.suffix_or_suffix_of_suffix hs ht with ⟨between, hst⟩ | ⟨between, hst⟩
  all_goals
    have hlength := congrArg byteLength hst
    rw [byteLength_append] at hlength
    have hnil : between = [] := by
      by_contra hne
      have := byteLength_pos hne
      omega
    simpa [hnil, eq_comm] using hst

theorem offsetOf_eq_byteLength_iff (h : s <:+ source) :
    offsetOf source s = byteLength source ↔ s = [] :=
  offsetOf_inj h List.nil_suffix

theorem from?_offsetOf (h : s <:+ source) : from? source (offsetOf source s) = some s := by
  obtain ⟨before, rfl⟩ := h
  rw [from?, split?_eq_some_iff.mpr ⟨rfl, (offsetOf_append before s).symm⟩]
  rfl

theorem slice?_offsetOf (h : w ++ t <:+ source) :
    slice? source (offsetOf source (w ++ t)) (offsetOf source t) = some w := by
  have hoffset := offsetOf_of_append h
  rw [slice?, if_pos (by omega), from?_offsetOf h, Option.bind_some,
    split?_eq_some_iff.mpr ⟨rfl, by omega⟩]
  rfl

theorem find?_eq (p : Char → Bool) (s : List Char) : find? p s =
    if s.dropWhile (!p ·) = [] then none else some (byteLength (s.takeWhile (!p ·))) := by
  induction s with
  | nil => rfl
  | cons c s ih =>
    cases hp : p c with
    | true => simp [find?, hp]
    | false =>
      rw [find?, ih]
      simp only [hp, Bool.false_eq_true, if_false, List.dropWhile_cons, List.takeWhile_cons,
        Bool.not_false, if_true, byteLength_cons]
      split
      · rfl
      · rw [Option.map_some, Nat.add_comm]

theorem seek?_offsetOf (h : s <:+ source) (p : Char → Bool) :
    seek? source p (offsetOf source s) = some (offsetOf source (s.dropWhile (!p ·))) := by
  rw [seek?, from?_offsetOf h, Option.map_some, find?_eq, Option.some_inj]
  by_cases hend : s.dropWhile (!p ·) = []
  · rw [if_pos hend, hend, offsetOf_nil]
  · rw [if_neg hend]
    have hcut : s.takeWhile (!p ·) ++ s.dropWhile (!p ·) = s := List.takeWhile_append_dropWhile
    have hoffset : offsetOf source (s.dropWhile (!p ·)) =
        offsetOf source (s.takeWhile (!p ·) ++ s.dropWhile (!p ·)) +
          byteLength (s.takeWhile (!p ·)) := offsetOf_of_append (by rwa [hcut])
    rw [hoffset, hcut]

theorem seek?_skipBlank (h : s <:+ source) :
    seek? source (!isBlank ·) (offsetOf source s) = some (offsetOf source (skipBlank s)) := by
  rw [seek?_offsetOf h]
  simp only [Bool.not_not]
  rfl

end

/-! ### Phrases -/

section

variable {source s : List Char}

theorem phrase?_nil_offsetOf (h : s <:+ source) :
    phrase? source [] (offsetOf source s) =
      some ((Phrase.after? [] s).map (offsetOf source)) := by
  rw [phrase?, from?_offsetOf h]
  cases s with
  | nil => rfl
  | cons c s =>
    simp only [Option.bind_eq_bind, Option.bind_some, Phrase.after?, Phrase.spelled?]
    by_cases hc : isBlank c = true
    · rw [if_pos hc, if_pos hc, seek?_skipBlank h]
      simp [skipBlank, hc]
    · rw [if_neg hc, if_neg hc]
      rfl

section

variable {phrase : List Char} (ih : ∀ {s : List Char}, s <:+ source →
  phrase? source phrase (offsetOf source s) =
    some ((Phrase.after? phrase s).map (offsetOf source)))

include ih

/-- Whether there are blanks to pass shows in the offset: it stays the same if there are none. -/
theorem phrase?_space_offsetOf (h : s <:+ source) :
    phrase? source (' ' :: phrase) (offsetOf source s) =
      some ((Phrase.after? (' ' :: phrase) s).map (offsetOf source)) := by
  rw [phrase?, if_pos rfl, seek?_skipBlank h]
  simp only [Option.bind_eq_bind, Option.bind_some, offsetOf_inj ((skipBlank_suffix s).trans h) h]
  cases s with
  | nil => rfl
  | cons c s =>
    by_cases hc : isBlank c = true
    · have hskip : skipBlank (c :: s) = skipBlank s := by simp [skipBlank, hc]
      have hne : skipBlank s ≠ c :: s := by
        intro he
        have := (skipBlank_suffix s).length_le
        simp [he] at this
      have hrest : skipBlank s <:+ source :=
        (skipBlank_suffix s).trans ((List.suffix_cons c s).trans h)
      rw [hskip, if_neg hne, ih hrest, Phrase.after?, Phrase.after?, Phrase.spelled?, if_pos rfl,
        if_pos hc]
    · have hskip : skipBlank (c :: s) = c :: s := by simp [skipBlank, hc]
      rw [if_pos hskip, Phrase.after?, Phrase.spelled?, if_pos rfl, if_neg hc]
      rfl

theorem phrase?_letter_offsetOf {p : Char} (hp : p ≠ ' ') (h : s <:+ source) :
    phrase? source (p :: phrase) (offsetOf source s) =
      some ((Phrase.after? (p :: phrase) s).map (offsetOf source)) := by
  rw [phrase?, if_neg hp, from?_offsetOf h]
  cases s with
  | nil => rfl
  | cons c s =>
    simp only [Option.bind_eq_bind, Option.bind_some]
    by_cases hc : lower c = [p]
    · rw [if_pos hc, ← offsetOf_cons h, ih ((List.suffix_cons c s).trans h), Phrase.after?,
        Phrase.after?, Phrase.spelled?, if_neg hp, if_pos hc]
    · rw [if_neg hc, Phrase.after?, Phrase.spelled?, if_neg hp, if_neg hc]
      rfl

end

theorem phrase?_offsetOf (phrase : List Char) (h : s <:+ source) :
    phrase? source phrase (offsetOf source s) =
      some ((Phrase.after? phrase s).map (offsetOf source)) := by
  induction phrase generalizing s with
  | nil => exact phrase?_nil_offsetOf h
  | cons p phrase ih =>
    by_cases hp : p = ' '
    · subst hp
      exact phrase?_space_offsetOf ih h
    · exact phrase?_letter_offsetOf ih hp h

variable (book : Phrasebook)

theorem token?_offsetOf (t : Token) (h : s <:+ source) :
    token? book source (offsetOf source s) t =
      some ((book.after? t s).map (offsetOf source)) := by
  by_cases ht : t = .endOfInput
  · rw [token?, if_pos ht, Phrasebook.after?, if_pos ht]
    by_cases hs : s = []
    · rw [if_pos hs, if_pos ((offsetOf_eq_byteLength_iff h).mpr hs), hs]
      rfl
    · rw [if_neg hs, if_neg fun he => hs ((offsetOf_eq_byteLength_iff h).mp he)]
      rfl
  · rw [token?, if_neg ht, Phrasebook.after?, if_neg ht]
    cases book.phrase? t with
    | none => rfl
    | some phrase => exact phrase?_offsetOf phrase.toList h

theorem first?_offsetOf (tokens : List Token) (h : s <:+ source) :
    first? book source (offsetOf source s) tokens =
      some ((book.first s id tokens).1,
        (book.first s id tokens).2.map (Prod.map id (offsetOf source))) := by
  induction tokens with
  | nil => rfl
  | cons t tokens ih =>
    rw [first?, token?_offsetOf book t h]
    simp only [Option.bind_eq_bind, Option.bind_some, Phrasebook.first, id_eq]
    cases book.after? t s with
    | some rest => rfl
    | none =>
      simp only [Option.map_none]
      rw [ih]
      rfl

end

/-! ### Calls -/

def mark (source : List Char) (c : Cursor) : Mark := ⟨offsetOf source c.rest, c.tried⟩

section

variable {book : Phrasebook} {source : List Char} {c : Cursor}

theorem seek?_ahead (h : c.rest <:+ source) :
    seek? source (!isBlank ·) (mark source c).offset = some (offsetOf source c.ahead) :=
  seek?_skipBlank h

theorem name?_mark (h : c.rest <:+ source) :
    name? book source (mark source c) =
      some ((Call.name.run book source c).1, mark source (Call.name.run book source c).2) := by
  have hahead : c.ahead <:+ source := (skipBlank_suffix c.rest).trans h
  rw [name?, seek?_ahead h]
  simp only [Option.bind_eq_bind, Option.bind_some]
  by_cases hnil : c.ahead = []
  · rw [if_pos ((offsetOf_eq_byteLength_iff hahead).mpr hnil), Call.run_name_of_nil hnil]
    rfl
  · rw [if_neg fun he => hnil ((offsetOf_eq_byteLength_iff hahead).mp he)]
    have hcut : word c.ahead ++ c.ahead.dropWhile (!isBlank ·) = c.ahead :=
      word_append_dropWhile c.ahead
    have hstop : c.ahead.dropWhile (!isBlank ·) <:+ source :=
      (List.dropWhile_suffix _).trans hahead
    have hslice : slice? source (offsetOf source (word c.ahead ++ c.ahead.dropWhile (!isBlank ·)))
        (offsetOf source (c.ahead.dropWhile (!isBlank ·))) = some (word c.ahead) :=
      slice?_offsetOf (by rwa [hcut])
    rw [hcut] at hslice
    rw [seek?_offsetOf hahead isBlank, Option.bind_some, hslice, Option.bind_some]
    cases hr : book.isReserved (word c.ahead) with
    | true =>
      rw [if_pos rfl, Call.run_name_of_isReserved hnil hr]
      rfl
    | false =>
      rw [if_neg Bool.false_ne_true, seek?_skipBlank hstop, Call.run_name hnil hr]
      rfl

theorem find?_quote_eq_none {quote : Char} {text : List Char}
    (hq : Reader.isQuote quote = true) (h : Reader.quoted? (quote :: text) = none) :
    find? (· == quote) text = none := by
  have hdrop : text.dropWhile (· != quote) = [] := by
    rw [Reader.quoted?, if_pos hq] at h
    split at h
    · next hdrop => exact hdrop
    · cases h
  rw [find?_eq]
  exact if_pos hdrop

theorem find?_quote_append {quote : Char} {contents : List Char} (hfree : quote ∉ contents)
    (rest : List Char) :
    find? (· == quote) (contents ++ quote :: rest) = some (byteLength contents) := by
  have hother : ∀ d ∈ contents, (!(d == quote)) = true := by
    intro d hd
    have hne : d ≠ quote := fun he => hfree (he ▸ hd)
    simpa using hne
  rw [find?_eq, List.dropWhile_append_of_pos hother, List.takeWhile_append_of_pos hother]
  simp

theorem quotation?_mark (h : c.rest <:+ source) :
    quotation? source (mark source c) =
      some ((Call.quotation.run book source c).1,
        mark source (Call.quotation.run book source c).2) := by
  have hahead : c.ahead <:+ source := (skipBlank_suffix c.rest).trans h
  rw [quotation?, seek?_ahead h]
  simp only [Option.bind_eq_bind, Option.bind_some, from?_offsetOf hahead]
  cases hc : c.ahead with
  | nil =>
    rw [Call.run_quotation_of_none (by rw [hc]; rfl)]
    rfl
  | cons quote text =>
    rw [hc] at hahead
    have htext : text <:+ source := (List.suffix_cons quote text).trans hahead
    dsimp only
    by_cases hq : Reader.isQuote quote = true
    · rw [if_pos hq, ← offsetOf_cons hahead, from?_offsetOf htext, Option.bind_some]
      -- The scanner looks for the closing quote just where the reader finds it.
      cases hquoted : Reader.quoted? c.ahead with
      | none =>
        rw [find?_quote_eq_none hq (hc ▸ hquoted), Call.run_quotation_of_none hquoted]
        rfl
      | some found =>
        obtain ⟨contents, rest⟩ := found
        obtain ⟨quote', -, hfree, hs⟩ := Reader.quoted?_eq_some hquoted
        obtain ⟨rfl, rfl⟩ := List.cons.inj (hc.symm.trans hs)
        have hbody : quote :: rest <:+ source := (List.suffix_append contents _).trans htext
        have hstop := offsetOf_of_append htext
        rw [find?_quote_append hfree, Call.run_quotation hquoted]
        simp only [← hstop, slice?_offsetOf htext, Option.bind_some, ← offsetOf_cons hbody,
          seek?_skipBlank ((List.suffix_cons quote rest).trans hbody)]
        rfl
    · rw [if_neg hq, Call.run_quotation_of_none (by rw [hc, Reader.quoted?, if_neg hq])]
      rfl

theorem run?_mark (call : Call) (h : c.rest <:+ source) :
    run? book source call (mark source c) =
      some ((call.run book source c).1, mark source (call.run book source c).2) := by
  have hahead : c.ahead <:+ source := (skipBlank_suffix c.rest).trans h
  cases call with
  | peek tokens =>
    rw [run?, seek?_ahead h]
    simp only [Option.bind_eq_bind, Option.bind_some, first?_offsetOf book tokens hahead,
      Call.run_peek, Option.map_map]
    rfl
  | extract tokens =>
    rw [run?, seek?_ahead h]
    simp only [Option.bind_eq_bind, Option.bind_some, first?_offsetOf book tokens hahead]
    cases hf : (book.first c.ahead id tokens).2 with
    | none =>
      have hmissed := Phrasebook.first_eq_none (Phrasebook.after?_eq_none_of_first hf)
      rw [List.map_id] at hmissed
      rw [Call.run_extract_of_none hf, hmissed]
      rfl
    | some found =>
      rw [Call.run_extract_of_some hf]
      rfl
  | name => exact name?_mark h
  | quotation => exact quotation?_mark h

/-- The scanner gives the same answers as the readers, and every cut that it asks for has a
result. -/
theorem runAll?_mark (calls : List Call) (h : c.rest <:+ source) :
    runAll? book source calls (mark source c) =
      some ((Call.runAll book source calls c).1,
        mark source (Call.runAll book source calls c).2) := by
  induction calls generalizing c with
  | nil => rfl
  | cons call calls ih =>
    rw [runAll?, run?_mark call h]
    simp only [Option.bind_eq_bind, Option.bind_some]
    rw [ih ((Call.run_suffix call).trans h)]
    rfl

end

end ByteScan

open ByteScan

/-- What holds of a cursor wherever the calls have left it in the source. -/
structure Cursor.Steady (book : Phrasebook) (source : String) (c : Cursor) : Prop where
  boundary : (⟨c.offset source.toList⟩ : String.Pos.Raw).IsValid source
  offset_le : c.offset source.toList ≤ source.utf8ByteSize
  forward : ∀ calls : List Call,
    c.offset source.toList ≤ (Call.runAll book source.toList calls c).2.offset source.toList
  stays : ∀ call : Call,
    call.isExtraction = false ∨ (call.run book source.toList c).1.isFound = false →
      (call.run book source.toList c).2.rest = c.rest
  at_next : ∀ call : Call,
    call.isExtraction = true → (call.run book source.toList c).1.isFound = true →
      (call.run book source.toList c).2.offset source.toList =
        (placeOf source.toList (call.run book source.toList c).2.ahead).offset
  peek_iff : ∀ tokens t,
    ((Call.peek tokens).run book source.toList c).1 = .token t ↔
      ((Call.extract tokens).run book source.toList c).1 = .token t
  single : ∀ tokens t, ((Call.peek tokens).run book source.toList c).1 = .token t →
    (Call.extract [t]).run book source.toList c =
        (Call.extract tokens).run book source.toList c ∧
      (Call.extract [t]).run book source.toList
          ((Call.peek tokens).run book source.toList c).2 =
        (Call.extract tokens).run book source.toList c

namespace Cursor

theorem offset_le_of_suffix {source : List Char} {c d : Cursor} (h : d.rest <:+ c.rest) :
    c.offset source ≤ d.offset source := by
  obtain ⟨passed, hpassed⟩ := h
  have hlength := congrArg byteLength hpassed
  rw [byteLength_append] at hlength
  rw [offset, offset]
  omega

theorem steady_of_suffix {book : Phrasebook} {source : String} {c : Cursor}
    (h : c.rest <:+ source.toList) : c.Steady book source where
  boundary := isSome_from?_iff.mp (Option.isSome_of_eq_some (from?_offsetOf h))
  offset_le := by
    rw [← byteLength_toList]
    exact Nat.sub_le _ _
  forward calls := offset_le_of_suffix (Call.runAll_suffix calls)
  stays call hstays := by
    rcases Call.run_cases book source.toList call c with ⟨-, hrest⟩ | ⟨hextraction, hfound, -⟩
    · exact hrest
    · simp [hextraction, hfound] at hstays
  at_next call hextraction hfound := by
    rcases Call.run_cases book source.toList call c with ⟨hstays, -⟩ | ⟨-, -, -, hahead⟩
    · simp [hextraction, hfound] at hstays
    · rw [hahead]
      rfl
  peek_iff _ _ := Call.peek_eq_token_iff
  single _ _ hpeek := Call.run_extract_singleton (Call.peek_eq_token_iff.mp hpeek)

end Cursor

/-- After any calls the cursor is steady, and the answers are those of the scanner that knows byte
offsets only: so no cut of the source past its end or inside a character was asked for. -/
theorem steady_of_runAll (book : Phrasebook) (source : String) (calls : List Call) :
    let (answers, c) := Call.runAll book source.toList calls (.start source.toList)
    c.Steady book source ∧
      ByteScan.runAll? book source.toList calls ⟨0, []⟩ =
        some (answers, ⟨c.offset source.toList, c.tried⟩) := by
  have hsuffix : (Call.runAll book source.toList calls (.start source.toList)).2.rest <:+
      source.toList := Call.runAll_suffix calls
  have hstart : mark source.toList (.start source.toList) = ⟨0, []⟩ := by
    simp [mark, offsetOf, Cursor.start]
  refine ⟨Cursor.steady_of_suffix hsuffix, ?_⟩
  rw [← hstart]
  exact runAll?_mark calls (List.suffix_refl _)

/-- Wide blanks, a quoted text with an accent, and a quote that is not closed. -/
example : ByteScan.runAll? .standard "\u3000PRINT\u2003'\u00e9'\u00a0'x".toList
      [.peek [.setWord, .print], .extract [.print], .quotation, .quotation, .name, .name] ⟨0, []⟩ =
    some ([.token .print, .token .print, .text "\u00e9", .nothing, .text "'x",
      .failure ⟨.endOfText, ⟨1, 19, 19⟩⟩], ⟨19, []⟩) := by
  decide +kernel

end Wordy
