import Mathlib
import Wordy.Json
import Wordy.Proofs.Literals

/-! The texts that spell a JSON value, with white space wherever it may stand between the marks and
the values, and a reader for them. A string is spelled by its code units: the characters of the
string as they are, escapes of one letter and escapes of four digits. The reader finds the value of
every text that spells one, so no text spells two values; and a value is spelled by the text that
it is laid out in. -/

namespace Wordy

namespace Json

open Text Script

/-! ### Strings -/

/-- The letters of the escapes, with the characters that they stand for. -/
def letters : List (Char × Char) :=
  [('\x22', '\x22'), ('\x5c', '\x5c'), ('/', '/'), ('b', '\x08'), ('f', '\x0c'), ('n', '\n'),
   ('r', '\r'), ('t', '\t')]

/-- The code units are spelled between the quotation marks. -/
inductive Contents : List Nat → List Char → Prop
  | nil : Contents [] []
  | plain {c : Char} {units : List Nat} {s : List Char} (hlow : 0x20 ≤ c.toNat)
      (hquote : c ≠ '\x22') (hslash : c ≠ '\x5c') (hs : Contents units s) :
      Contents (utf16 c.toNat ++ units) (c :: s)
  | letter {letter c : Char} {units : List Nat} {s : List Char}
      (h : letters.lookup letter = some c) (hs : Contents units s) :
      Contents (c.toNat :: units) ('\x5c' :: letter :: s)
  | digits {a b c d : Char} {n : Nat} {units : List Nat} {s : List Char}
      (h : hexNumber? 4 0 [a, b, c, d] = some n) (hs : Contents units s) :
      Contents (n :: units) ('\x5c' :: 'u' :: a :: b :: c :: d :: s)

def Quoted (value : String) (s : List Char) : Prop :=
  ∃ contents, Contents (codeUnits value.toList) contents ∧ s = '\x22' :: contents ++ ['\x22']

/-- The characters that the code units stand for. Half of a surrogate pair stands for none. -/
def decode? : List Nat → Option (List Char)
  | [] => some []
  | n :: units =>
    if n < 0xd800 ∨ 0xdfff < n then (decode? units).map (Char.ofNat n :: ·)
    else match units with
      | [] => none
      | m :: units =>
        if n < 0xdc00 ∧ 0xdc00 ≤ m ∧ m ≤ 0xdfff then
          (decode? units).map (Char.ofNat (0x10000 + (n - 0xd800) * 0x400 + (m - 0xdc00)) :: ·)
        else none

/-- Reads up to the closing quotation mark. -/
def contents? : List Char → Option (List Nat × List Char)
  | '\x22' :: s => some ([], s)
  | '\x5c' :: 'u' :: a :: b :: c :: d :: s => do
    let n ← hexNumber? 4 0 [a, b, c, d]
    let (units, s) ← contents? s
    return (n :: units, s)
  | '\x5c' :: letter :: s => do
    let c ← letters.lookup letter
    let (units, s) ← contents? s
    return (c.toNat :: units, s)
  | c :: s => do
    if c.toNat < 0x20 then none
    else
      let (units, s) ← contents? s
      return (utf16 c.toNat ++ units, s)
  | [] => none

def quoted? : List Char → Option (String × List Char)
  | '\x22' :: s => do
    let (units, s) ← contents? s
    return (.ofList (← decode? units), s)
  | _ => none

theorem decode?_codeUnits (s : List Char) : decode? (codeUnits s) = some s := by
  induction s with
  | nil => rfl
  | cons c s ih =>
    have hvalid : c.toNat < 0xd800 ∨ 0xdfff < c.toNat ∧ c.toNat < 0x110000 := by
      have := c.valid
      simp only [UInt32.isValidChar, Nat.isValidChar] at this
      simp only [Char.toNat]
      omega
    rw [codeUnits, List.flatMap_cons, ← codeUnits, utf16]
    by_cases hbase : c.toNat < 0x10000
    · rw [if_pos hbase, List.singleton_append, decode?.eq_def]
      simp only []
      rw [if_pos (by omega), ih, Option.map_some, Char.ofNat_toNat]
    · rw [if_neg hbase, List.cons_append, List.singleton_append, decode?, if_neg (by omega)]
      have hpair : 0x10000 + (0xd800 + (c.toNat - 0x10000) / 0x400 - 0xd800) * 0x400 +
          (0xdc00 + (c.toNat - 0x10000) % 0x400 - 0xdc00) = c.toNat := by omega
      simp only [hpair]
      rw [if_pos (by omega), ih, Option.map_some, Char.ofNat_toNat]

theorem contents?_of_contents {units : List Nat} {s : List Char} (h : Contents units s)
    (rest : List Char) : contents? (s ++ '\x22' :: rest) = some (units, rest) := by
  induction h with
  | nil => rfl
  | @plain c units s hlow hquote hslash _ ih =>
    rw [List.cons_append, contents?, if_neg (Nat.not_lt.mpr hlow), ih]
    · rfl
    · exact hquote
    · exact fun _ _ _ _ _ h _ => hslash h
    · exact fun _ _ h _ => hslash h
  | @letter letter c units s h _ ih =>
    have hu : letter ≠ 'u' := by
      rintro rfl
      cases h
    simp only [List.cons_append]
    rw [contents?, h, ih]
    · rfl
    · exact fun _ _ _ _ _ h _ => hu h
  | @digits a b c d n units s h _ ih =>
    simp only [List.cons_append]
    rw [contents?, h, ih]
    rfl

theorem quoted?_of_quoted {value : String} {s : List Char} (h : Quoted value s)
    (rest : List Char) : quoted? (s ++ rest) = some (value, rest) := by
  obtain ⟨contents, hcontents, rfl⟩ := h
  rw [List.append_assoc, List.cons_append, List.singleton_append, quoted?,
    contents?_of_contents hcontents]
  simp [decode?_codeUnits]

theorem contents_escape (c : Char) {units : List Nat} {s : List Char} (hs : Contents units s) :
    Contents (utf16 c.toNat ++ units) (escape c ++ s) := by
  have hletter {letter x : Char} (h : letters.lookup letter = some x)
      (hbase : utf16 x.toNat = [x.toNat]) (hc : c = x) :
      Contents (utf16 c.toNat ++ units) (['\x5c', letter] ++ s) := by
    rw [hc, hbase]
    exact .letter h hs
  unfold escape
  split_ifs with hquote hslash h8 htab hline hpage hreturn hlow
  · exact hletter rfl rfl hquote
  · exact hletter rfl rfl hslash
  · exact hletter rfl rfl h8
  · exact hletter rfl rfl htab
  · exact hletter rfl rfl hline
  · exact hletter rfl rfl hpage
  · exact hletter rfl rfl hreturn
  · have hhigh := hexDigit?_digitChar (c.toNat / 16) (by omega)
    have hunit := hexDigit?_digitChar (c.toNat % 16) (by omega)
    have hzero : hexDigit? '0' = some 0 := by decide
    have hn : hexNumber? 4 0 ['0', '0', Nat.digitChar (c.toNat / 16),
        Nat.digitChar (c.toNat % 16)] = some c.toNat := by
      simp [hexNumber?, hzero, hhigh, hunit, Nat.div_add_mod]
    rw [utf16, if_pos (by omega)]
    exact .digits hn hs
  · exact .plain (Nat.le_of_not_lt hlow) hquote hslash hs

theorem quoted_quote (value : String) : Quoted value (quote value).toList := by
  refine ⟨value.toList.flatMap escape, ?_, by simp [quote]⟩
  induction value.toList with
  | nil => exact .nil
  | cons c s ih => exact contents_escape c ih

/-! ### Values -/

def isSpace (c : Char) : Bool := c == ' ' || c == '\t' || c == '\n' || c == '\r'

def Blank (s : List Char) : Prop := ∀ c ∈ s, isSpace c

mutual

/-- The text spells the value. -/
inductive Spells : Json → List Char → Prop
  | null : Spells null ['n', 'u', 'l', 'l']
  | yes : Spells (boolean true) ['t', 'r', 'u', 'e']
  | no : Spells (boolean false) ['f', 'a', 'l', 's', 'e']
  | string {value : String} {s : List Char} (h : Quoted value s) : Spells (string value) s
  | noElements {s : List Char} (h : Blank s) : Spells (array []) ('[' :: s ++ [']'])
  | elements {element : Json} {elements : List Json} {before s t : List Char}
      (hbefore : Blank before) (h : Spells element s) (hs : Elements elements t) :
      Spells (array (element :: elements)) ('[' :: before ++ s ++ t ++ [']'])
  | noMembers {s : List Char} (h : Blank s) : Spells (object []) ('\x7b' :: s ++ ['\x7d'])
  | members {member : String × Json} {members : List (String × Json)} {before s t : List Char}
      (hbefore : Blank before) (h : Member member s) (hs : Members members t) :
      Spells (object (member :: members)) ('\x7b' :: before ++ s ++ t ++ ['\x7d'])

/-- The text spells the elements after the first, each behind a comma. -/
inductive Elements : List Json → List Char → Prop
  | nil {s : List Char} (h : Blank s) : Elements [] s
  | cons {element : Json} {elements : List Json} {after before s t : List Char}
      (hafter : Blank after) (hbefore : Blank before) (h : Spells element s)
      (hs : Elements elements t) :
      Elements (element :: elements) (after ++ ',' :: before ++ s ++ t)

inductive Member : String × Json → List Char → Prop
  | mk {key : String} {value : Json} {after before s t : List Char} (hkey : Quoted key s)
      (hafter : Blank after) (hbefore : Blank before) (h : Spells value t) :
      Member (key, value) (s ++ after ++ ':' :: before ++ t)

/-- The text spells the members after the first, each behind a comma. -/
inductive Members : List (String × Json) → List Char → Prop
  | nil {s : List Char} (h : Blank s) : Members [] s
  | cons {member : String × Json} {members : List (String × Json)} {after before s t : List Char}
      (hafter : Blank after) (hbefore : Blank before) (h : Member member s)
      (hs : Members members t) :
      Members (member :: members) (after ++ ',' :: before ++ s ++ t)

end

def skipSpace (s : List Char) : List Char := s.dropWhile isSpace

/-- The text after the mark, if the mark is what comes after white space. -/
def after? (mark : Char) (s : List Char) : Option (List Char) :=
  match skipSpace s with
  | [] => none
  | c :: s => if c = mark then some s else none

mutual

/-- Reads a value after white space. Values inside one another, as those after one another in a
list, take one each from the limit. -/
def value? : Nat → List Char → Option (Json × List Char)
  | 0, _ => none
  | limit + 1, s =>
    match skipSpace s with
    | 'n' :: 'u' :: 'l' :: 'l' :: s => some (null, s)
    | 't' :: 'r' :: 'u' :: 'e' :: s => some (boolean true, s)
    | 'f' :: 'a' :: 'l' :: 's' :: 'e' :: s => some (boolean false, s)
    | '\x22' :: s => (quoted? ('\x22' :: s)).map (Prod.map string id)
    | '[' :: s =>
      match after? ']' s with
      | some s => some (array [], s)
      | none => do
        let (element, s) ← value? limit s
        let (elements, s) ← elements? limit s
        return (array (element :: elements), s)
    | '\x7b' :: s =>
      match after? '\x7d' s with
      | some s => some (object [], s)
      | none => do
        let (member, s) ← member? limit s
        let (members, s) ← members? limit s
        return (object (member :: members), s)
    | _ => none

/-- Reads the elements after the first, up to the closing bracket. -/
def elements? : Nat → List Char → Option (List Json × List Char)
  | 0, _ => none
  | limit + 1, s =>
    match after? ']' s with
    | some s => some ([], s)
    | none => do
      let (element, s) ← value? limit (← after? ',' s)
      let (elements, s) ← elements? limit s
      return (element :: elements, s)

def member? : Nat → List Char → Option ((String × Json) × List Char)
  | 0, _ => none
  | limit + 1, s => do
    let (key, s) ← quoted? (skipSpace s)
    let (value, s) ← value? limit (← after? ':' s)
    return ((key, value), s)

/-- Reads the members after the first, up to the closing brace. -/
def members? : Nat → List Char → Option (List (String × Json) × List Char)
  | 0, _ => none
  | limit + 1, s =>
    match after? '\x7d' s with
    | some s => some ([], s)
    | none => do
      let (member, s) ← member? limit (← after? ',' s)
      let (members, s) ← members? limit s
      return (member :: members, s)

end

/-- Reads a text that spells a single value between white space. -/
def ofText? (text : String) : Option Json := do
  let (value, rest) ← value? (text.length + 1) text.toList
  if skipSpace rest = [] then return value else none

theorem blank_nil : Blank [] := fun _ hc => absurd hc List.not_mem_nil

theorem skipSpace_append {before s : List Char} (h : Blank before) :
    skipSpace (before ++ s) = skipSpace s :=
  List.dropWhile_append_of_pos h

theorem skipSpace_append_cons {before : List Char} (h : Blank before) {c : Char}
    (hc : isSpace c = false) (s : List Char) : skipSpace (before ++ c :: s) = c :: s := by
  rw [skipSpace_append h]
  exact List.dropWhile_cons_of_neg (by simp [hc])

theorem after?_self {before : List Char} (h : Blank before) (mark : Char)
    (hmark : isSpace mark = false) (s : List Char) :
    after? mark (before ++ mark :: s) = some s := by
  rw [after?, skipSpace_append_cons h hmark]
  exact if_pos rfl

theorem after?_of_ne {before : List Char} (h : Blank before) {mark c : Char}
    (hc : isSpace c = false) (hne : c ≠ mark) (s : List Char) :
    after? mark (before ++ c :: s) = none := by
  rw [after?, skipSpace_append_cons h hc]
  exact if_neg hne

theorem Spells.exists_cons {value : Json} {s : List Char} (h : Spells value s) :
    ∃ c t, s = c :: t ∧ isSpace c = false ∧ c ≠ ']' := by
  cases h with
  | string h =>
    obtain ⟨contents, -, rfl⟩ := h
    exact ⟨_, _, rfl, by decide, by decide⟩
  | _ => exact ⟨_, _, rfl, by decide, by decide⟩

theorem Spells.after?_eq_none {value : Json} {before s : List Char} (h : Spells value s)
    (hbefore : Blank before) (rest : List Char) : after? ']' (before ++ (s ++ rest)) = none := by
  obtain ⟨c, t, rfl, hspace, hclose⟩ := h.exists_cons
  exact after?_of_ne hbefore hspace hclose _

theorem Member.exists_cons {member : String × Json} {s : List Char} (h : Member member s) :
    ∃ t, s = '\x22' :: t := by
  obtain ⟨⟨contents, -, rfl⟩, -, -, -⟩ := h
  exact ⟨_, rfl⟩

theorem Member.after?_eq_none {member : String × Json} {before s : List Char}
    (h : Member member s) (hbefore : Blank before) (rest : List Char) :
    after? '\x7d' (before ++ (s ++ rest)) = none := by
  obtain ⟨t, rfl⟩ := h.exists_cons
  exact after?_of_ne hbefore (by decide) (by decide) _

mutual

theorem Spells.value?_eq {value : Json} {s : List Char} :
    Spells value s → ∀ {before : List Char} (limit : Nat), Blank before → s.length < limit →
      ∀ rest, value? limit (before ++ (s ++ rest)) = some (value, rest)
  | .null, _, _ + 1, hb, _, _ => by
    rw [value?, skipSpace_append hb]
    rfl
  | .yes, _, _ + 1, hb, _, _ => by
    rw [value?, skipSpace_append hb]
    rfl
  | .no, _, _ + 1, hb, _, _ => by
    rw [value?, skipSpace_append hb]
    rfl
  | .string h, _, _ + 1, hb, _, rest => by
    have hread := quoted?_of_quoted h rest
    obtain ⟨contents, -, rfl⟩ := h
    simp only [List.cons_append] at hread ⊢
    rw [value?, skipSpace_append_cons hb (by decide)]
    simp only [hread]
    rfl
  | .noElements h, _, _ + 1, hb, _, rest => by
    have hclose := after?_self h ']' (by decide) rest
    simp only [List.cons_append, List.append_assoc, List.nil_append]
    rw [value?, skipSpace_append_cons hb (by decide)]
    simp only [hclose]
  | @Spells.elements _ _ _ s t hinner h hs, _, limit + 1, hb, hlimit, rest => by
    simp only [List.length_append, List.length_cons, List.length_nil] at hlimit
    -- What comes after the bracket is a value, and does not close the list.
    have hopen := h.after?_eq_none hinner (t ++ ']' :: rest)
    have hfirst := h.value?_eq limit hinner (by omega) (t ++ ']' :: rest)
    have hothers := hs.elements?_eq limit (by omega) rest
    simp only [List.cons_append, List.append_assoc, List.nil_append]
    rw [value?, skipSpace_append_cons hb (by decide)]
    simp only [hopen, hfirst, Option.bind_eq_bind, Option.bind_some, hothers]
    rfl
  | .noMembers h, _, _ + 1, hb, _, rest => by
    have hclose := after?_self h '\x7d' (by decide) rest
    simp only [List.cons_append, List.append_assoc, List.nil_append]
    rw [value?, skipSpace_append_cons hb (by decide)]
    simp only [hclose]
  | @Spells.members _ _ _ s t hinner h hs, _, limit + 1, hb, hlimit, rest => by
    simp only [List.length_append, List.length_cons, List.length_nil] at hlimit
    have hopen := h.after?_eq_none hinner (t ++ '\x7d' :: rest)
    have hfirst := h.member?_eq limit hinner (by omega) (t ++ '\x7d' :: rest)
    have hothers := hs.members?_eq limit (by omega) rest
    simp only [List.cons_append, List.append_assoc, List.nil_append]
    rw [value?, skipSpace_append_cons hb (by decide)]
    simp only [hopen, hfirst, Option.bind_eq_bind, Option.bind_some, hothers]
    rfl

theorem Elements.elements?_eq {elements : List Json} {s : List Char} :
    Elements elements s → ∀ limit, s.length < limit →
      ∀ rest, elements? limit (s ++ ']' :: rest) = some (elements, rest)
  | .nil h, _ + 1, _, rest => by
    rw [elements?, after?_self h _ (by decide)]
  | @Elements.cons _ _ _ before s t hafter hbefore h hs, limit + 1, hlimit, rest => by
    simp only [List.length_append, List.length_cons] at hlimit
    have hfirst := h.value?_eq limit hbefore (by omega) (t ++ ']' :: rest)
    have hothers := hs.elements?_eq limit (by omega) rest
    simp only [List.cons_append, List.append_assoc]
    rw [elements?, after?_of_ne hafter (by decide) (by decide), after?_self hafter _ (by decide)]
    simp only [Option.bind_eq_bind, Option.bind_some, hfirst, hothers]
    rfl

theorem Member.member?_eq {member : String × Json} {s : List Char} :
    Member member s → ∀ {before : List Char} (limit : Nat), Blank before → s.length < limit →
      ∀ rest, member? limit (before ++ (s ++ rest)) = some (member, rest)
  | @Member.mk _ _ after inner s t hkey hafter hinner h, _, limit + 1, hb, hlimit, rest => by
    simp only [List.length_append, List.length_cons] at hlimit
    have hread := quoted?_of_quoted hkey (after ++ ':' :: (inner ++ (t ++ rest)))
    have hcolon := after?_self hafter ':' (by decide) (inner ++ (t ++ rest))
    have hvalue := h.value?_eq limit hinner (by omega) rest
    obtain ⟨contents, -, rfl⟩ := hkey
    simp only [List.cons_append, List.append_assoc] at hread ⊢
    rw [member?, skipSpace_append_cons hb (by decide)]
    simp only [hread, Option.bind_eq_bind, Option.bind_some, hcolon, hvalue]
    rfl

theorem Members.members?_eq {members : List (String × Json)} {s : List Char} :
    Members members s → ∀ limit, s.length < limit →
      ∀ rest, members? limit (s ++ '\x7d' :: rest) = some (members, rest)
  | .nil h, _ + 1, _, rest => by
    rw [members?, after?_self h _ (by decide)]
  | @Members.cons _ _ _ before s t hafter hbefore h hs, limit + 1, hlimit, rest => by
    simp only [List.length_append, List.length_cons] at hlimit
    have hfirst := h.member?_eq limit hbefore (by omega) (t ++ '\x7d' :: rest)
    have hothers := hs.members?_eq limit (by omega) rest
    simp only [List.cons_append, List.append_assoc]
    rw [members?, after?_of_ne hafter (by decide) (by decide), after?_self hafter _ (by decide)]
    simp only [Option.bind_eq_bind, Option.bind_some, hfirst, hothers]
    rfl

end

/-- The reader finds what a text spells, whatever white space stands around it. -/
theorem ofText?_of_spells {value : Json} {before s after : List Char} (hbefore : Blank before)
    (h : Spells value s) (hafter : Blank after) :
    ofText? (.ofList (before ++ s ++ after)) = some value := by
  have hrest : skipSpace after = [] := by
    rw [← after.append_nil, skipSpace_append hafter]
    rfl
  have hlimit : s.length < (before ++ (s ++ after)).length + 1 := by
    simp only [List.length_append]
    omega
  rw [ofText?, List.append_assoc, String.length_ofList, String.toList_ofList,
    h.value?_eq _ hbefore hlimit]
  exact if_pos hrest

theorem Spells.unique {value other : Json} {s : List Char} (h : Spells value s)
    (hother : Spells other s) : value = other := by
  have hread := ofText?_of_spells blank_nil h blank_nil
  rw [ofText?_of_spells blank_nil hother blank_nil] at hread
  exact (Option.some.inj hread).symm

/-! ### The layout of a value -/

theorem blank_newline (depth : Nat) : Blank (newline depth).toList := by
  intro c hc
  rw [newline, String.toList_ofList, List.mem_cons] at hc
  rcases hc with rfl | hc
  · rfl
  · rw [List.eq_of_mem_replicate hc]
    rfl

theorem blank_space : Blank [' '] := by
  intro c hc
  rw [List.mem_singleton.mp hc]
  rfl

mutual

theorem spells_pretty (depth : Nat) : (value : Json) → Spells value (value.pretty depth).toList
  | null => by simpa [pretty] using Spells.null
  | boolean true => by simpa [pretty] using Spells.yes
  | boolean false => by simpa [pretty] using Spells.no
  | string value => .string (quoted_quote value)
  | array [] => by simpa [pretty] using Spells.noElements blank_nil
  | array (element :: elements) => by
    have helements := elements_pretty (depth + 1) (blank_newline depth) elements
    have h := Spells.elements (blank_newline (depth + 1)) (spells_pretty (depth + 1) element)
      helements
    simpa [pretty] using h
  | object [] => by simpa [pretty] using Spells.noMembers blank_nil
  | object ((key, value) :: members) => by
    have hmember := Member.mk (quoted_quote key) blank_nil blank_space
      (spells_pretty (depth + 1) value)
    have hmembers := members_pretty (depth + 1) (blank_newline depth) members
    have h := Spells.members (blank_newline (depth + 1)) hmember hmembers
    simpa [pretty] using h

theorem elements_pretty (depth : Nat) {after : List Char} (hafter : Blank after) :
    (elements : List Json) → Elements elements ((prettyElements depth elements).toList ++ after)
  | [] => .nil hafter
  | element :: elements => by
    have h := Elements.cons blank_nil (blank_newline depth) (spells_pretty depth element)
      (elements_pretty depth hafter elements)
    simpa [prettyElements] using h

theorem members_pretty (depth : Nat) {after : List Char} (hafter : Blank after) :
    (members : List (String × Json)) →
      Members members ((prettyMembers depth members).toList ++ after)
  | [] => .nil hafter
  | (key, value) :: members => by
    have hmember := Member.mk (quoted_quote key) blank_nil blank_space (spells_pretty depth value)
    have h := Members.cons blank_nil (blank_newline depth) hmember
      (members_pretty depth hafter members)
    simpa [prettyMembers] using h

end

theorem ofText?_text (value : Json) : ofText? value.text = some value := by
  have h := ofText?_of_spells blank_nil (spells_pretty 0 value) blank_nil
  simpa [text] using h

end Json

end Wordy
