/-! White space as the Unicode property `White_Space` defines it, and the cuts of a text at it. -/

namespace Wordy.Text

def isBlank (c : Char) : Bool :=
  let n := c.toNat
  (9 ≤ n && n ≤ 13) || n == 0x20 || n == 0x85 || n == 0xa0 || n == 0x1680 ||
    (0x2000 ≤ n && n ≤ 0x200a) || n == 0x2028 || n == 0x2029 || n == 0x202f || n == 0x205f ||
    n == 0x3000

def skipBlank (s : List Char) : List Char := s.dropWhile isBlank

/-- The characters before the first blank. -/
def word (s : List Char) : List Char := s.takeWhile (!isBlank ·)

/-- What follows the first word, from the start of the next one. -/
def afterWord (s : List Char) : List Char := skipBlank (s.dropWhile (!isBlank ·))

def trimEnd (s : List Char) : List Char := (skipBlank s.reverse).reverse

def trim (s : List Char) : List Char := trimEnd (skipBlank s)

def byteLength (s : List Char) : Nat := s.foldl (fun size c => size + c.utf8Size) 0

theorem skipBlank_append_blank {w s : List Char} (h : ∀ c ∈ w, isBlank c = true) :
    skipBlank (w ++ s) = skipBlank s :=
  List.dropWhile_append_of_pos h

theorem skipBlank_skipBlank (s : List Char) : skipBlank (skipBlank s) = skipBlank s := by
  induction s with
  | nil => rfl
  | cons c s ih => by_cases h : isBlank c = true <;> simp_all [skipBlank]

theorem skipBlank_suffix (s : List Char) : skipBlank s <:+ s :=
  List.dropWhile_suffix _

theorem afterWord_suffix (s : List Char) : afterWord s <:+ s :=
  (skipBlank_suffix _).trans (List.dropWhile_suffix _)

theorem foldl_utf8Size (s : List Char) (n : Nat) :
    s.foldl (fun size c => size + c.utf8Size) n = n + byteLength s := by
  induction s generalizing n with
  | nil => rfl
  | cons c s ih =>
    have h : byteLength (c :: s) = s.foldl (fun size c => size + c.utf8Size) (0 + c.utf8Size) := rfl
    rw [h, List.foldl_cons, ih, ih, Nat.zero_add, Nat.add_assoc]

@[simp] theorem byteLength_nil : byteLength [] = 0 := rfl

@[simp] theorem byteLength_cons (c : Char) (s : List Char) :
    byteLength (c :: s) = c.utf8Size + byteLength s := by
  rw [byteLength, List.foldl_cons, foldl_utf8Size, Nat.zero_add]

@[simp] theorem byteLength_append (s t : List Char) :
    byteLength (s ++ t) = byteLength s + byteLength t := by
  induction s with
  | nil => simp
  | cons c s ih => simp [ih, Nat.add_assoc]

end Wordy.Text
