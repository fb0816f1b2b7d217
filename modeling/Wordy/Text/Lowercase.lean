import Wordy.Text.CaseTable

/-! Lower case, for one character and for a word. They differ in one letter: a capital sigma that
ends a word is lowered to the final form, and only a word shows where it ends. -/

namespace Wordy.Text

open CaseTable

/-- The lower-case form of a character that has one of a single character, else the character. -/
def lowerChar (c : Char) : Char :=
  let n := c.toNat
  if n < 0x80 then c.toLower
  else
    match lowerRuns.find? fun (first, last, step, _) =>
        first ≤ n && n ≤ last && (n - first) % step == 0 with
    | some (first, _, _, image) => Char.ofNat (image + (n - first))
    | none => c

/-- Only the capital I with a dot above lowers to two characters. -/
def lower (c : Char) : List Char :=
  if c = 'İ' then ['i', '\u0307'] else [lowerChar c]

def within (ranges : List (Nat × Nat)) (c : Char) : Bool :=
  ranges.any fun (first, last) => first ≤ c.toNat && c.toNat ≤ last

/-- The next character that case conversion does not look through has case. -/
def casedNext (s : List Char) : Bool :=
  match s.dropWhile (within ignorableRanges) with
  | [] => false
  | c :: _ => within casedRanges c

/-- Lowers a text whose preceding characters are `before`, nearest first. -/
def lowercaseAfter (before : List Char) : List Char → List Char
  | [] => []
  | c :: rest =>
    (if c = 'Σ' then [if casedNext before && !casedNext rest then 'ς' else 'σ'] else lower c) ++
      lowercaseAfter (c :: before) rest

def lowercase (s : List Char) : List Char := lowercaseAfter [] s

end Wordy.Text
