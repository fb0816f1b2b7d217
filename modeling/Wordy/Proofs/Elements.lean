import Mathlib
import Wordy.Text.Blank
import Wordy.Proofs.Grammar
import Wordy.Proofs.Literals

/-! The lexical elements of a script. Which characters beyond ASCII may stand in an identifier is
left open. Comments, regular expressions, templates, single quotes, escapes in names and numerals
with letters in them are refused: no script here needs them. -/

namespace Wordy.Script

open Text

/-- White space and line breaks. -/
@[irreducible] def isSpace (c : Char) : Bool := isBlank c && c != '\u0085' || c == '\ufeff'

/-- The characters of identifiers, as the tables of Unicode have them. -/
structure Letters where
  isStart : Char → Bool
  isPart : Char → Bool
  isStart_ascii : ∀ c, c.toNat < 128 → isStart c = (c.isAlpha || c == '_' || c == '$')
  isPart_ascii : ∀ c, c.toNat < 128 → isPart c = (c.isAlphanum || c == '_' || c == '$')
  isPart_of_isStart : ∀ c, isStart c = true → isPart c = true
  isSpace_of_isPart : ∀ c, isPart c = true → isSpace c = false

/-- The words that are no identifiers in a script that is no module and outside strict mode. -/
def reservedWords : List String :=
  ["break", "case", "catch", "class", "const", "continue", "debugger", "default", "delete", "do",
   "else", "enum", "export", "extends", "false", "finally", "for", "function", "if", "import", "in",
   "instanceof", "new", "null", "return", "super", "switch", "this", "throw", "true", "try",
   "typeof", "var", "void", "while", "with"]

namespace Letters

variable (letters : Letters)

def IsWord (name : String) : Prop :=
  ∃ c rest, name.toList = c :: rest ∧ letters.isStart c = true ∧
    ∀ d ∈ rest, letters.isPart d = true

structure IsIdentifier (name : String) : Prop where
  isWord : letters.IsWord name
  not_reserved : name ∉ reservedWords

end Letters

inductive Element
  | identifier (name : String)
  | keyword (word : String)
  | numeral
  | literal
  | punctuator (symbol : String)
deriving DecidableEq, Repr

namespace Element

def ofWord (word : String) : Element :=
  if word ∈ reservedWords then keyword word else identifier word

def identifier? : Element → Option String
  | identifier name => some name
  | _ => none

/-- A value ends here for certain, so that a slash after it divides. -/
def endsValue : Element → Bool
  | identifier _ | numeral | literal => true
  | keyword word => word ∈ ["false", "null", "super", "this", "true"]
  | punctuator _ => false

end Element

/-- Each before those that it begins with. Where no value has ended, a slash would start a regular
expression. -/
def punctuators (afterValue : Bool) : List String :=
  [">>>=", "...", "===", "!==", "**=", "<<=", ">>=", ">>>", "&&=", "||=", "??=", "<=", ">=", "==",
   "!=", "**", "++", "--", "<<", ">>", "&&", "||", "??", "?.", "=>", "+=", "-=", "*=", "%=", "&=",
   "|=", "^="] ++ (if afterValue then ["/=", "/"] else []) ++
  ["\x7b", "\x7d", "(", ")", "[", "]", ".", ";", ",", "<", ">", "+", "-", "*", "%", "&", "|", "^",
   "!", "~", "?", ":", "="]

/-- Before a digit, a point after a question mark belongs to the digit. -/
def beginsWith (s : List Char) (symbol : String) : Bool :=
  symbol.toList.isPrefixOf s && !(symbol == "?." && (s.drop 2).head?.any Char.isDigit)

def opensComment (s : List Char) : Bool :=
  ["//", "/*", "<!--", "-->"].any fun opening => opening.toList.isPrefixOf s

def startsNumeral (s : List Char) : Bool :=
  s.head?.any Char.isDigit || s.head? == some '.' && s.tail.head?.any Char.isDigit

def isOctal (digits : List Char) : Bool :=
  digits.head? == some '0' && 1 < digits.length && digits.all (· < '8')

/-- What follows the digits, and the point among them if there is one. No point belongs to octal
digits after a zero. -/
def afterNumeral (s : List Char) : List Char :=
  match s.dropWhile Char.isDigit with
  | '.' :: fraction =>
    if isOctal (s.takeWhile Char.isDigit) then '.' :: fraction
    else fraction.dropWhile Char.isDigit
  | rest => rest

/-- The first element of a text that starts with no space, and what follows it. -/
def element? (letters : Letters) (afterValue : Bool) : List Char → Option (Element × List Char)
  | [] => none
  | c :: s =>
    if letters.isStart c then
      some (.ofWord (String.ofList (c :: s.takeWhile letters.isPart)), s.dropWhile letters.isPart)
    else if c = '\x22' then (literal? s).map fun (_, rest) => (.literal, rest)
    else if startsNumeral (c :: s) then
      if (afterNumeral (c :: s)).head?.any letters.isStart then none
      else some (.numeral, afterNumeral (c :: s))
    else if opensComment (c :: s) then none
    else ((punctuators afterValue).find? (beginsWith (c :: s))).map fun symbol =>
      (.punctuator symbol, (c :: s).drop symbol.toList.length)

theorem length_afterNumeral {s : List Char} (h : startsNumeral s = true) :
    (afterNumeral s).length < s.length := by
  cases s with
  | nil => cases h
  | cons c s =>
    have hdrop := List.length_dropWhile_le Char.isDigit s
    unfold afterNumeral
    by_cases hc : c.isDigit = true
    · rw [List.dropWhile_cons_of_pos hc]
      split
      · next fraction he =>
        have hfraction := List.length_dropWhile_le Char.isDigit fraction
        simp only [he, List.length_cons] at hdrop ⊢
        split
        · exact Nat.lt_succ_of_le hdrop
        · omega
      · exact Nat.lt_succ_of_le hdrop
    · obtain rfl : c = '.' := by simp_all [startsNumeral]
      exact Nat.lt_succ_of_le hdrop

theorem length_pos_of_mem_punctuators : ∀ afterValue, ∀ symbol ∈ punctuators afterValue,
    0 < symbol.toList.length := by decide

theorem length_of_element? {letters : Letters} {afterValue : Bool} {e : Element}
    {s rest : List Char} (h : element? letters afterValue s = some (e, rest)) :
    rest.length < s.length := by
  cases s with
  | nil => cases h
  | cons c s =>
    simp only [element?] at h
    split_ifs at h with hstart hquote hnumeral hletter hcomment
    · cases h
      exact Nat.lt_succ_of_le (List.length_dropWhile_le _ _)
    · obtain ⟨⟨units, rest⟩, hl, he⟩ := Option.map_eq_some_iff.mp h
      cases he
      exact (length_of_literal? hl).trans (Nat.lt_succ_self _)
    · cases h
      exact length_afterNumeral hnumeral
    · obtain ⟨symbol, hp, he⟩ := Option.map_eq_some_iff.mp h
      cases he
      have hpos := length_pos_of_mem_punctuators _ _ (List.mem_of_find?_eq_some hp)
      simp only [List.length_drop, List.length_cons]
      omega

/-- The elements of the text, if none is refused. -/
def elements? (letters : Letters) (afterValue : Bool) (s : List Char) : Option (List Element) :=
  match s with
  | [] => some []
  | c :: s =>
    if isSpace c then elements? letters afterValue s
    else
      match _h : element? letters afterValue (c :: s) with
      | some (e, rest) => (elements? letters e.endsValue rest).map (e :: ·)
      | none => none
termination_by s.length
decreasing_by
  · exact Nat.lt_succ_self _
  · exact length_of_element? _h

/-- The identifiers among the elements, in their order. -/
def identifiers? (letters : Letters) (afterValue : Bool) (s : List Char) : Option (List String) :=
  (elements? letters afterValue s).map fun es => es.filterMap Element.identifier?

section

variable {letters : Letters} {afterValue : Bool} {c : Char} {s rest : List Char} {e : Element}
  {name : String}

@[simp] theorem identifiers?_nil : identifiers? letters afterValue [] = some [] := by
  rw [identifiers?, elements?]
  rfl

theorem identifiers?_space (h : isSpace c = true) :
    identifiers? letters afterValue (c :: s) = identifiers? letters afterValue s := by
  rw [identifiers?, elements?, if_pos h, ← identifiers?]

@[simp] theorem identifiers?_blank (h : c = ' ' ∨ c = '\n' ∨ c = '\t') :
    identifiers? letters afterValue (c :: s) = identifiers? letters afterValue s :=
  identifiers?_space (by rcases h with rfl | rfl | rfl <;> simp [isSpace, isBlank])

theorem identifiers?_of_element? (hc : isSpace c = false)
    (h : element? letters afterValue (c :: s) = some (e, rest)) :
    identifiers? letters afterValue (c :: s) =
      (identifiers? letters e.endsValue rest).map (e.identifier?.toList ++ ·) := by
  rw [identifiers?, elements?, if_neg (by simp [hc])]
  split
  · next he =>
    cases h.symm.trans he
    cases hi : e.identifier? <;> simp [identifiers?, Function.comp_def, hi]
  · next he => cases h.symm.trans he

theorem toNat_of_isDigit (h : c.isDigit = true) : 48 ≤ c.toNat ∧ c.toNat ≤ 57 := by
  simpa [Char.isDigit, UInt32.le_iff_toNat_le] using h

theorem toNat_of_isAlpha (h : c.isAlpha = true) : 65 ≤ c.toNat ∧ c.toNat ≤ 122 := by
  have hcase : 65 ≤ c.toNat ∧ c.toNat ≤ 90 ∨ 97 ≤ c.toNat ∧ c.toNat ≤ 122 := by
    simpa [Char.isAlpha, Char.isUpper, Char.isLower, UInt32.le_iff_toNat_le] using h
  omega

theorem element?_word (h : letters.IsWord name) (hc : letters.isPart c = false) :
    element? letters afterValue (name.toList ++ c :: s) = some (.ofWord name, c :: s) := by
  obtain ⟨d, rest, hname, hstart, hrest⟩ := h
  have htake : (rest ++ c :: s).takeWhile letters.isPart = rest := by
    rw [List.takeWhile_append_of_pos hrest, List.takeWhile_cons_of_neg (by simp [hc]),
      List.append_nil]
  have hdrop : (rest ++ c :: s).dropWhile letters.isPart = c :: s := by
    rw [List.dropWhile_append_of_pos hrest, List.dropWhile_cons_of_neg (by simp [hc])]
  rw [hname, List.cons_append, element?, if_pos hstart, htake, hdrop, ← hname,
    String.ofList_toList]

theorem identifiers?_word (h : letters.IsWord name) (hc : letters.isPart c = false) :
    identifiers? letters afterValue (name.toList ++ c :: s) =
      (identifiers? letters (Element.ofWord name).endsValue (c :: s)).map
        ((Element.ofWord name).identifier?.toList ++ ·) := by
  have he : element? letters afterValue (name.toList ++ c :: s) = some (.ofWord name, c :: s) :=
    element?_word h hc
  obtain ⟨d, rest, hname, hstart, -⟩ := h
  rw [hname, List.cons_append] at he ⊢
  exact identifiers?_of_element?
    (letters.isSpace_of_isPart d (letters.isPart_of_isStart d hstart)) he

theorem identifiers?_identifier (h : letters.IsIdentifier name) (hc : letters.isPart c = false) :
    identifiers? letters afterValue (name.toList ++ c :: s) =
      (identifiers? letters true (c :: s)).map (name :: ·) := by
  rw [identifiers?_word h.isWord hc, Element.ofWord, if_neg h.not_reserved]
  rfl

theorem isWord_of_isAlpha (hne : name.toList ≠ []) (h : ∀ c ∈ name.toList, c.isAlpha = true) :
    letters.IsWord name := by
  have hstart (d : Char) (hd : d ∈ name.toList) : letters.isStart d = true := by
    have hcode := toNat_of_isAlpha (h d hd)
    rw [letters.isStart_ascii d (by omega), h d hd]
    rfl
  obtain ⟨c, rest, hname⟩ := List.exists_cons_of_ne_nil hne
  refine ⟨c, rest, hname, hstart c (by simp [hname]), fun d hd => ?_⟩
  exact letters.isPart_of_isStart d (hstart d (by simp [hname, hd]))

theorem isWord_of_mem_reservedWords (h : name ∈ reservedWords) : letters.IsWord name := by
  have hall : (reservedWords.all fun w =>
      !w.toList.isEmpty && w.toList.all Char.isAlpha) = true := by decide +kernel
  have hname := List.all_eq_true.mp hall name h
  simp only [Bool.and_eq_true, Bool.not_eq_true', List.isEmpty_eq_false_iff,
    List.all_eq_true] at hname
  exact isWord_of_isAlpha hname.1 hname.2

theorem identifiers?_keyword (h : name ∈ reservedWords) (hc : letters.isPart c = false) :
    identifiers? letters afterValue (name.toList ++ c :: s) =
      identifiers? letters (Element.keyword name).endsValue (c :: s) := by
  rw [identifiers?_word (isWord_of_mem_reservedWords h) hc, Element.ofWord, if_pos h]
  simp [Element.identifier?]

theorem isSpace_eq_false (h : 32 < c.toNat) (h' : c.toNat < 128) : isSpace c = false := by
  have hfar : c ≠ '\ufeff' := by
    rintro rfl
    exact absurd h' (by decide)
  have hblank : isBlank c = false := by
    unfold isBlank
    grind
  simp [isSpace, hblank, hfar]

theorem identifiers?_punctuator {symbol : String} (h : 32 < c.toNat) (h' : c.toNat < 128)
    (he : element? letters afterValue (c :: s) = some (.punctuator symbol, rest)) :
    identifiers? letters afterValue (c :: s) = identifiers? letters false rest := by
  rw [identifiers?_of_element? (isSpace_eq_false h h') he]
  simp [Element.identifier?, Element.endsValue]

@[simp] theorem identifiers?_mark (h : c ∈ ['(', ')', '\x7b', '\x7d', ';', ',']) :
    identifiers? letters afterValue (c :: s) = identifiers? letters false s := by
  have he : element? letters afterValue (c :: s) = some (.punctuator (String.singleton c), s) := by
    simp only [List.mem_cons, List.not_mem_nil, or_false] at h
    rcases h with rfl | rfl | rfl | rfl | rfl | rfl <;> cases afterValue <;>
      simp [element?, letters.isStart_ascii, startsNumeral, opensComment, punctuators, beginsWith]
  have hascii : 32 < c.toNat ∧ c.toNat < 128 := by
    simp only [List.mem_cons, List.not_mem_nil, or_false] at h
    rcases h with rfl | rfl | rfl | rfl | rfl | rfl <;> decide
  exact identifiers?_punctuator hascii.1 hascii.2 he

/-- The punctuators that stand between spaces, each after a value. -/
def spacedSymbols : List String :=
  ["=", "+=", "-=", "+", "-", "*", "/", "%", "&&", "||", "===", "!==", ">=", ">", "<=", "<"]

theorem identifiers?_symbol {symbol : String} (h : symbol ∈ spacedSymbols) :
    identifiers? letters true (symbol.toList ++ ' ' :: s) = identifiers? letters false s := by
  have he : element? letters true (symbol.toList ++ ' ' :: s) =
      some (.punctuator symbol, ' ' :: s) := by
    simp only [spacedSymbols, List.mem_cons, List.not_mem_nil, or_false] at h
    rcases h with rfl | rfl | rfl | rfl | rfl | rfl | rfl | rfl | rfl | rfl | rfl | rfl | rfl |
      rfl | rfl | rfl <;>
      simp [element?, letters.isStart_ascii, startsNumeral, opensComment, punctuators, beginsWith]
  have hall : (spacedSymbols.all fun w => w.toList.head?.any fun c =>
      decide (32 < c.toNat) && decide (c.toNat < 128)) = true := by decide +kernel
  obtain ⟨c, hc, hascii⟩ := (Option.any_eq_true _ _).mp (List.all_eq_true.mp hall symbol h)
  obtain ⟨hlow, hhigh⟩ : 32 < c.toNat ∧ c.toNat < 128 := by simpa using hascii
  obtain ⟨t, hsymbol⟩ := List.head?_eq_some_iff.mp hc
  rw [hsymbol, List.cons_append] at he
  rw [hsymbol, List.cons_append, identifiers?_punctuator hlow hhigh he,
    identifiers?_blank (.inl rfl)]

theorem identifiers?_bang {d : Char} (h : d ≠ '=') :
    identifiers? letters afterValue ('!' :: d :: s) = identifiers? letters false (d :: s) := by
  have he : element? letters afterValue ('!' :: d :: s) = some (.punctuator "!", d :: s) := by
    cases afterValue <;>
      simp [element?, letters.isStart_ascii, startsNumeral, opensComment, punctuators, beginsWith,
        h.symm]
  exact identifiers?_punctuator (by decide) (by decide) he

theorem identifiers?_sign {d : Char} (h : d ≠ '=') (h' : d ≠ '-') :
    identifiers? letters afterValue ('-' :: d :: s) = identifiers? letters false (d :: s) := by
  have he : element? letters afterValue ('-' :: d :: s) = some (.punctuator "-", d :: s) := by
    cases afterValue <;>
      simp [element?, letters.isStart_ascii, startsNumeral, opensComment, punctuators, beginsWith,
        h.symm, h'.symm]
  exact identifiers?_punctuator (by decide) (by decide) he

theorem isStart_of_isDigit (h : c.isDigit = true) : letters.isStart c = false := by
  have hdigit := toNat_of_isDigit h
  have halpha : c.isAlpha = false := by
    by_contra hc
    have hletter := toNat_of_isAlpha (Bool.not_eq_false _ ▸ hc)
    omega
  have hline : c ≠ '_' := by
    rintro rfl
    exact absurd h (by decide)
  have hdollar : c ≠ '$' := by
    rintro rfl
    exact absurd h (by decide)
  rw [letters.isStart_ascii c (by omega)]
  simp [halpha, hline, hdollar]

theorem identifiers?_numeral (h : startsNumeral (c :: s) = true)
    (hr : ∀ d ∈ (afterNumeral (c :: s)).head?, letters.isStart d = false) :
    identifiers? letters afterValue (c :: s) =
      identifiers? letters true (afterNumeral (c :: s)) := by
  have hc : c.isDigit = true ∨ c = '.' := by
    simp only [startsNumeral, List.head?_cons, Option.any_some, Bool.or_eq_true] at h
    rcases h with h | h
    · exact .inl h
    · exact .inr (by simpa using (Bool.and_eq_true_iff.mp h).1)
  have hstart : letters.isStart c = false := by
    rcases hc with hc | rfl
    · exact isStart_of_isDigit hc
    · rw [letters.isStart_ascii '.' (by decide)]
      rfl
  have hascii : 32 < c.toNat ∧ c.toNat < 128 ∧ c ≠ '\x22' := by
    rcases hc with hc | rfl
    · have hdigit := toNat_of_isDigit hc
      refine ⟨by omega, by omega, ?_⟩
      rintro rfl
      exact absurd hc (by decide)
    · decide
  have hletter : (afterNumeral (c :: s)).head?.any letters.isStart = false := by
    simpa [Option.any_eq_false] using hr
  have he : element? letters afterValue (c :: s) = some (.numeral, afterNumeral (c :: s)) := by
    rw [element?, if_neg (by simp [hstart]), if_neg hascii.2.2, if_pos h,
      if_neg (by simp [hletter])]
  rw [identifiers?_of_element? (isSpace_eq_false hascii.1 hascii.2.1) he]
  simp [Element.identifier?, Element.endsValue]

/-- The text of a numeral does not go on here. -/
def EndsNumeral (letters : Letters) (s : List Char) : Prop :=
  ∀ c ∈ s.head?, c ≠ '.' ∧ c.isDigit = false ∧ letters.isStart c = false

theorem EndsNumeral.dropWhile_eq (h : EndsNumeral letters s) : s.dropWhile Char.isDigit = s := by
  cases s with
  | nil => rfl
  | cons c s => rw [List.dropWhile_cons_of_neg (by simp [(h c rfl).2.1])]

theorem afterNumeral_point {whole : List Char} (hw : ∀ d ∈ whole, d.isDigit = true) :
    afterNumeral (whole ++ '.' :: s) =
      if isOctal whole then '.' :: s else s.dropWhile Char.isDigit := by
  rw [afterNumeral, List.takeWhile_append_of_pos hw, List.dropWhile_append_of_pos hw]
  simp

theorem afterNumeral_whole {whole : List Char} (hw : ∀ d ∈ whole, d.isDigit = true)
    (hs : EndsNumeral letters s) : afterNumeral (whole ++ s) = s := by
  rw [afterNumeral, List.dropWhile_append_of_pos hw, hs.dropWhile_eq]
  split
  · exact absurd rfl (hs '.' rfl).1
  · rfl

theorem identifiers?_fraction {digits : List Char} (hne : digits ≠ [])
    (hd : ∀ d ∈ digits, d.isDigit = true) (hs : EndsNumeral letters s) :
    identifiers? letters afterValue ('.' :: (digits ++ s)) = identifiers? letters true s := by
  have hafter : afterNumeral ('.' :: (digits ++ s)) = s := by
    change (digits ++ s).dropWhile Char.isDigit = s
    rw [List.dropWhile_append_of_pos hd, hs.dropWhile_eq]
  have hstarts : startsNumeral ('.' :: (digits ++ s)) = true := by
    obtain ⟨d, rest, rfl⟩ := List.exists_cons_of_ne_nil hne
    simp [startsNumeral, hd]
  rw [identifiers?_numeral hstarts fun d hm => (hs d (hafter ▸ hm)).2.2, hafter]

/-- Digits and a fraction are one numeral, or two where the digits are octal after a zero. -/
theorem identifiers?_unsigned {whole fraction : List Char}
    (hw : ∀ d ∈ whole, d.isDigit = true)
    (hf : fraction = [] ∧ whole ≠ [] ∨
      ∃ digits, fraction = '.' :: digits ∧ digits ≠ [] ∧ ∀ d ∈ digits, d.isDigit = true)
    (hs : EndsNumeral letters s) :
    identifiers? letters afterValue (whole ++ (fraction ++ s)) = identifiers? letters true s := by
  have hstarts {d : Char} {rest : List Char} (h : d.isDigit = true) :
      startsNumeral (d :: rest) = true := by simp [startsNumeral, h]
  rcases hf with ⟨rfl, hne⟩ | ⟨digits, rfl, hne, hd⟩
  · have hafter := afterNumeral_whole hw hs
    obtain ⟨d, rest, rfl⟩ := List.exists_cons_of_ne_nil hne
    rw [List.cons_append] at hafter
    rw [List.nil_append, List.cons_append, identifiers?_numeral (hstarts (hw d (by simp)))
      fun c hm => (hs c (hafter ▸ hm)).2.2, hafter]
  · cases whole with
    | nil => exact identifiers?_fraction hne hd hs
    | cons d rest =>
      have hafter := afterNumeral_point hw (s := digits ++ s)
      have hfirst {t : List Char} : startsNumeral (d :: t) = true := hstarts (hw d (by simp))
      simp only [List.cons_append] at hafter ⊢
      by_cases hoctal : isOctal (d :: rest) = true
      · -- An octal numeral ends before the point, and the fraction is a numeral of its own.
        rw [if_pos hoctal] at hafter
        rw [identifiers?_numeral hfirst (by simp [hafter, letters.isStart_ascii]), hafter,
          identifiers?_fraction hne hd hs]
      · rw [if_neg hoctal, List.dropWhile_append_of_pos hd, hs.dropWhile_eq] at hafter
        rw [identifiers?_numeral hfirst fun c hm => (hs c (hafter ▸ hm)).2.2, hafter]

theorem identifiers?_isNumeral {w : List Char} (h : Atom.IsNumeral w)
    (hs : EndsNumeral letters s) :
    identifiers? letters afterValue (w ++ s) = identifiers? letters true s := by
  obtain ⟨sign, whole, fraction, rfl, hsign, hw, hf⟩ := h
  rw [List.append_assoc, List.append_assoc]
  rcases hsign with rfl | rfl
  · exact identifiers?_unsigned hw hf hs
  · -- The first character after the sign is a digit or the point.
    obtain ⟨d, rest, he, hequals, hhyphen⟩ : ∃ d rest, whole ++ (fraction ++ s) = d :: rest ∧
        d ≠ '=' ∧ d ≠ '-' := by
      have hdigit {d : Char} (h : d.isDigit = true) : d ≠ '=' ∧ d ≠ '-' := by
        constructor <;> rintro rfl <;> exact absurd h (by decide)
      cases whole with
      | cons d whole => exact ⟨d, _, rfl, hdigit (hw d (by simp))⟩
      | nil =>
        rcases hf with ⟨-, hne⟩ | ⟨digits, rfl, -, -⟩
        · exact absurd rfl hne
        · exact ⟨'.', _, rfl, by decide⟩
    have hrest : identifiers? letters false (whole ++ (fraction ++ s)) =
        identifiers? letters true s := identifiers?_unsigned hw hf hs
    rw [he] at hrest
    rw [List.singleton_append, he, identifiers?_sign hequals hhyphen, hrest]

theorem identifiers?_quote (t : String) :
    identifiers? letters afterValue ((quote t).toList ++ s) = identifiers? letters true s := by
  have hquote : (quote t).toList ++ s = '\x22' :: (t.toList.flatMap escape ++ '\x22' :: s) := by
    simp [quote]
  have he : element? letters afterValue ('\x22' :: (t.toList.flatMap escape ++ '\x22' :: s)) =
      some (.literal, s) := by
    rw [element?, if_neg (by simp [letters.isStart_ascii]), if_pos rfl, literal?_quote]
    rfl
  rw [hquote, identifiers?_of_element? (isSpace_eq_false (by decide) (by decide)) he]
  simp [Element.identifier?, Element.endsValue]

theorem isIdentifier_of_element?
    (h : element? letters afterValue s = some (.identifier name, rest)) :
    letters.IsIdentifier name := by
  cases s with
  | nil => cases h
  | cons c s =>
    simp only [element?] at h
    split_ifs at h with hstart hquote hnumeral hletter hcomment
    · obtain ⟨hword, -⟩ := Prod.mk.inj (Option.some.inj h)
      unfold Element.ofWord at hword
      split_ifs at hword with hreserved
      cases hword
      refine ⟨⟨c, _, String.toList_ofList, hstart, fun d hd => ?_⟩, hreserved⟩
      exact List.mem_takeWhile_imp hd
    · obtain ⟨_, -, he⟩ := Option.map_eq_some_iff.mp h
      cases he
    · cases h
    · obtain ⟨_, -, he⟩ := Option.map_eq_some_iff.mp h
      cases he

theorem isIdentifier_of_mem_elements? {es : List Element}
    (h : elements? letters afterValue s = some es) (hn : .identifier name ∈ es) :
    letters.IsIdentifier name := by
  fun_induction elements? letters afterValue s generalizing es with
  | case1 => cases h; simp at hn
  | case2 v c s hc ih => exact ih h hn
  | case3 v c s hc e rest he ih =>
    obtain ⟨es', hes, rfl⟩ := Option.map_eq_some_iff.mp h
    rcases List.mem_cons.mp hn with rfl | hn
    · exact isIdentifier_of_element? he
    · exact ih hes hn
  | case4 => cases h

theorem isIdentifier_of_identifiers? {names : List String}
    (h : identifiers? letters afterValue s = some names) : ∀ n ∈ names, letters.IsIdentifier n := by
  intro n hn
  obtain ⟨es, hes, rfl⟩ := Option.map_eq_some_iff.mp h
  obtain ⟨e, he, hname⟩ := List.mem_filterMap.mp hn
  cases e with
  | identifier name =>
    cases hname
    exact isIdentifier_of_mem_elements? hes he
  | _ => cases hname

end

end Wordy.Script
