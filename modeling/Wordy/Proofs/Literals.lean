import Mathlib
import Wordy.Javascript

/-! Double-quoted string literals, as a script reads them. What a literal stands for is a list of
code units, since an escape can write one half of a surrogate pair. Whatever text is quoted, its
literal ends where the quote was closed and stands for the code units of that text. -/

namespace Wordy.Script

open Text

/-- The code units of a code point. -/
def utf16 (n : Nat) : List Nat :=
  if n < 0x10000 then [n]
  else [0xd800 + (n - 0x10000) / 0x400, 0xdc00 + (n - 0x10000) % 0x400]

def codeUnits (s : List Char) : List Nat := s.flatMap (utf16 ·.toNat)

def hexDigit? (c : Char) : Option Nat :=
  if c.isDigit then some (c.toNat - '0'.toNat)
  else if 'a' ≤ c ∧ c ≤ 'f' then some (c.toNat - 'a'.toNat + 10)
  else if 'A' ≤ c ∧ c ≤ 'F' then some (c.toNat - 'A'.toNat + 10)
  else none

/-- The number that goes on from `n` with so many digits of the text. -/
def hexNumber? : Nat → Nat → List Char → Option Nat
  | 0, n, _ => some n
  | _ + 1, _, [] => none
  | count + 1, n, c :: s => (hexDigit? c).bind fun digit => hexNumber? count (16 * n + digit) s

/-- What an escape with a `u` stands for, and how many characters come after the `u`. -/
def unicodeEscape? : List Char → Option (List Nat × Nat)
  | '\x7b' :: s =>
    let count := (s.takeWhile fun c => (hexDigit? c).isSome).length
    match hexNumber? count 0 s with
    | some n =>
      if 0 < count ∧ n ≤ 0x10ffff ∧ (s.drop count).head? = some '\x7d' then
        some (utf16 n, count + 2)
      else none
    | none => none
  | s => (hexNumber? 4 0 s).map fun n => ([n], 4)

/-- What an escape stands for, and how many characters come after the backslash. A line break that
is escaped stands for nothing, and a digit other than a lone zero may not be. -/
def escape? : List Char → Option (List Nat × Nat)
  | [] => none
  | c :: s =>
    if c = 'b' then some ([8], 1)
    else if c = 't' then some ([9], 1)
    else if c = 'n' then some ([10], 1)
    else if c = 'v' then some ([11], 1)
    else if c = 'f' then some ([12], 1)
    else if c = 'r' then some ([13], 1)
    else if c = '\r' then some ([], if s.head? = some '\n' then 2 else 1)
    else if c = '\n' ∨ c = '\u2028' ∨ c = '\u2029' then some ([], 1)
    else if c = 'x' then (hexNumber? 2 0 s).map fun n => ([n], 3)
    else if c = 'u' then (unicodeEscape? s).map fun (units, count) => (units, count + 1)
    else if c = '0' ∧ ∀ d ∈ s.head?, d.isDigit = false then some ([0], 1)
    else if c.isDigit then none
    else some (utf16 c.toNat, 1)

/-- What a literal stands for whose opening quote has been read, and the text after it. -/
def literal? : List Char → Option (List Nat × List Char)
  | [] => none
  | c :: s =>
    if c = '\x22' then some ([], s)
    else if c = '\x5c' then
      match escape? s with
      | some (units, count) => (literal? (s.drop count)).map (Prod.map (units ++ ·) id)
      | none => none
    else if c = '\n' ∨ c = '\r' then none
    else (literal? s).map (Prod.map (utf16 c.toNat ++ ·) id)
termination_by s => s.length
decreasing_by all_goals simp

theorem utf16_append_inj {c d : Char} {s t : List Nat}
    (h : utf16 c.toNat ++ s = utf16 d.toNat ++ t) : c = d ∧ s = t := by
  have hvalid (c : Char) : c.toNat < 0xd800 ∨ 0xdfff < c.toNat ∧ c.toNat < 0x110000 := by
    have := c.valid
    simp only [UInt32.isValidChar, Nat.isValidChar] at this
    simp only [Char.toNat]
    omega
  have hc := hvalid c
  have hd := hvalid d
  rw [← Char.toNat_inj]
  unfold utf16 at h
  split at h <;> split at h <;>
    simp only [List.cons_append, List.nil_append, List.cons.injEq] at h
  · exact h
  · omega
  · omega
  · exact ⟨by omega, h.2.2⟩

theorem codeUnits_injective : Function.Injective codeUnits := by
  intro s t h
  induction s generalizing t with
  | nil =>
    cases t with
    | nil => rfl
    | cons d t => unfold codeUnits utf16 at h; grind
  | cons c s ih =>
    cases t with
    | nil => unfold codeUnits utf16 at h; grind
    | cons d t =>
      obtain ⟨rfl, hs⟩ := utf16_append_inj (by simpa [codeUnits] using h)
      rw [ih hs]

theorem hexDigit?_digitChar : ∀ n < 16, hexDigit? (Nat.digitChar n) = some n := by decide

theorem literal?_backslash {s : List Char} {units : List Nat} {count : Nat}
    (h : escape? s = some (units, count)) :
    literal? ('\x5c' :: s) = (literal? (s.drop count)).map (Prod.map (units ++ ·) id) := by
  rw [literal?, if_neg (by decide), if_pos rfl, h]

theorem literal?_escape (c : Char) (s : List Char) :
    literal? (escape c ++ s) = (literal? s).map (Prod.map (utf16 c.toNat ++ ·) id) := by
  have hsingle {x : Char} (h : escape? (x :: s) = some (utf16 c.toNat, 1)) :
      literal? (['\x5c', x] ++ s) = (literal? s).map (Prod.map (utf16 c.toNat ++ ·) id) :=
    literal?_backslash h
  unfold escape
  split_ifs with hquote hslash h8 htab hline hpage hreturn hlow
  · exact hsingle (by rw [hquote]; rfl)
  · exact hsingle (by rw [hslash]; rfl)
  · exact hsingle (by rw [h8]; rfl)
  · exact hsingle (by rw [htab]; rfl)
  · exact hsingle (by rw [hline]; rfl)
  · exact hsingle (by rw [hpage]; rfl)
  · exact hsingle (by rw [hreturn]; rfl)
  · have hhigh := hexDigit?_digitChar (c.toNat / 16) (by omega)
    have hunit := hexDigit?_digitChar (c.toNat % 16) (by omega)
    have hzero : hexDigit? '0' = some 0 := by decide
    have he : escape? ('u' :: '0' :: '0' :: Nat.digitChar (c.toNat / 16) ::
        Nat.digitChar (c.toNat % 16) :: s) = some ([c.toNat], 5) := by
      simp [escape?, unicodeEscape?, hexNumber?, hzero, hhigh, hunit, Nat.div_add_mod]
    rw [utf16, if_pos (by omega)]
    exact literal?_backslash he
  · rw [List.singleton_append, literal?, if_neg hquote, if_neg hslash,
      if_neg (by simp [hline, hreturn])]

/-- A quoted text is read as its code units, whatever follows the quote. -/
theorem literal?_quote (t : List Char) (s : List Char) :
    literal? (t.flatMap escape ++ '\x22' :: s) = some (codeUnits t, s) := by
  induction t with
  | nil => simp [literal?, codeUnits]
  | cons c t ih => simp [literal?_escape, ih, codeUnits]

theorem length_of_literal? {s rest : List Char} {units : List Nat}
    (h : literal? s = some (units, rest)) : rest.length < s.length := by
  fun_induction literal? s generalizing units with
  | case2 => simp_all
  | case3 s value count he _ ih =>
    obtain ⟨⟨units', rest'⟩, hl, hp⟩ := Option.map_eq_some_iff.mp h
    cases hp
    have := ih hl
    simp only [List.length_drop, List.length_cons] at this ⊢
    omega
  | case6 c s _ _ _ ih =>
    obtain ⟨⟨units', rest'⟩, hl, hp⟩ := Option.map_eq_some_iff.mp h
    cases hp
    exact (ih hl).trans (Nat.lt_succ_self _)
  | _ => cases h

/-- A literal at the start of the text, from its opening quote on. -/
def string? : List Char → Option (List Nat × List Char)
  | '\x22' :: s => literal? s
  | _ => none

theorem digitChar_printable : ∀ n < 16, 0x20 ≤ (Nat.digitChar n).toNat := by decide

theorem printable_of_mem_escape {c x : Char} (h : x ∈ escape c) : 0x20 ≤ x.toNat := by
  have hpair {y : Char} (hy : 0x20 ≤ y.toNat) (h : x ∈ ['\x5c', y]) : 0x20 ≤ x.toNat := by
    rcases List.mem_cons.mp h with rfl | h
    · decide
    · rwa [List.mem_singleton.mp h]
  unfold escape at h
  split_ifs at h with hquote hslash h8 htab hline hpage hreturn hlow
  · exact hpair (by decide) h
  · exact hpair (by decide) h
  · exact hpair (by decide) h
  · exact hpair (by decide) h
  · exact hpair (by decide) h
  · exact hpair (by decide) h
  · exact hpair (by decide) h
  · have hhigh := digitChar_printable (c.toNat / 16) (by omega)
    have hunit := digitChar_printable (c.toNat % 16) (by omega)
    simp only [List.mem_cons, List.not_mem_nil, or_false] at h
    rcases h with rfl | rfl | rfl | rfl | rfl | rfl <;> first | assumption | decide
  · rw [List.mem_singleton.mp h]
    exact Nat.le_of_not_lt hlow

/-- Whatever a text holds and whatever follows its literal, the literal is read up to its own end
and stands for this text and no other one; it is written without control characters. -/
theorem string?_javascript_text (contents : String) (rest : List Char) :
    string? ((Atom.text contents).javascript.toList ++ rest) =
        some (codeUnits contents.toList, rest) ∧
      (∀ other : String, codeUnits other.toList = codeUnits contents.toList → other = contents) ∧
      ∀ c ∈ (Atom.text contents).javascript.toList, 0x20 ≤ c.toNat := by
  have hliteral : (Atom.text contents).javascript.toList =
      '\x22' :: (contents.toList.flatMap escape ++ ['\x22']) := String.toList_ofList
  refine ⟨?_, fun other h => ?_, fun c hc => ?_⟩
  · rw [hliteral, List.cons_append, string?, List.append_assoc]
    exact literal?_quote contents.toList rest
  · exact String.toList_injective (codeUnits_injective h)
  · rw [hliteral, List.mem_cons, List.mem_append, List.mem_singleton, List.mem_flatMap] at hc
    rcases hc with rfl | ⟨x, -, hx⟩ | rfl
    · decide
    · exact printable_of_mem_escape hx
    · decide

end Wordy.Script
