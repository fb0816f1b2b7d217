import Mathlib
import Wordy.Compiler
import Wordy.Proofs.Elements

/-! The numbers that numerals stand for. A number word is written into a script as it stands, and a
script reads it to the base ten, but for digits after a zero that are all octal: these it reads to
the base eight, and takes no point after them. -/

namespace Wordy

namespace Script

def digitValue (c : Char) : Nat := c.toNat - '0'.toNat

/-- The number that digits write to a base. -/
def digitsValue (base : Nat) (digits : List Char) : Nat :=
  digits.foldl (fun n c => base * n + digitValue c) 0

/-- Zero, digits that start with another one, or digits after a zero that are not all octal. -/
inductive DecimalInteger : List Char → Prop
  | zero : DecimalInteger ['0']
  | nonZero {c : Char} {digits : List Char} (hne : c ≠ '0')
      (h : ∀ d ∈ c :: digits, d.isDigit = true) : DecimalInteger (c :: digits)
  | nonOctal {digits : List Char} (h : ∀ d ∈ digits, d.isDigit = true)
      (hd : ∃ d ∈ digits, '8' ≤ d) : DecimalInteger ('0' :: digits)

/-- The numeric literals of a script, outside strict mode, that are made of digits and points, and
the number that each stands for. Exponents, other bases and separators are written with letters and
low lines. -/
inductive Numeral : List Char → ℚ → Prop
  | octal {digits : List Char} (hne : digits ≠ [])
      (h : ∀ d ∈ digits, d.isDigit = true ∧ d < '8') :
      Numeral ('0' :: digits) (digitsValue 8 digits)
  | integer {whole : List Char} (h : DecimalInteger whole) : Numeral whole (digitsValue 10 whole)
  | point {whole fraction : List Char} (h : DecimalInteger whole)
      (hf : ∀ d ∈ fraction, d.isDigit = true) :
      Numeral (whole ++ '.' :: fraction)
        (digitsValue 10 whole + digitsValue 10 fraction / 10 ^ fraction.length)
  | fraction {fraction : List Char} (hne : fraction ≠ [])
      (hf : ∀ d ∈ fraction, d.isDigit = true) :
      Numeral ('.' :: fraction) (digitsValue 10 fraction / 10 ^ fraction.length)

/-- Each digit counts as often as the power of ten of its place says. -/
def placeValue : Int → List Char → ℚ
  | _, [] => 0
  | place, c :: digits => digitValue c * 10 ^ place + placeValue (place - 1) digits

/-- The digits before a point and those after it make up the text. Without a point there are none
after it. -/
inductive Pointed (whole : List Char) : List Char → List Char → Prop
  | integer (hne : whole ≠ []) : Pointed whole [] whole
  | point {fraction : List Char} (hne : fraction ≠ [])
      (hf : ∀ d ∈ fraction, d.isDigit = true) : Pointed whole fraction (whole ++ '.' :: fraction)

/-- A numeral, or the negative of one. -/
inductive SignedNumeral : List Char → ℚ → Prop
  | plain {s : List Char} {q : ℚ} (h : Numeral s q) : SignedNumeral s q
  | minus {s : List Char} {q : ℚ} (h : Numeral s q) : SignedNumeral ('-' :: s) (-q)

section

variable {whole fraction s : List Char} {q : ℚ}

theorem digitsValue_concat (base : Nat) (digits : List Char) (c : Char) :
    digitsValue base (digits ++ [c]) = base * digitsValue base digits + digitValue c := by
  simp [digitsValue]

theorem digitsValue_zero_cons (base : Nat) (digits : List Char) :
    digitsValue base ('0' :: digits) = digitsValue base digits := by
  simp [digitsValue, digitValue]

theorem digitsValue_eight_le (digits : List Char) :
    digitsValue 8 digits ≤ digitsValue 10 digits := by
  induction digits using List.reverseRecOn with
  | nil => exact Nat.le_refl 0
  | append_singleton digits c ih =>
    rw [digitsValue_concat, digitsValue_concat]
    omega

/-- A number below eight is written alike to both bases, any other one is not. -/
theorem digitsValue_eight_eq_iff {digits : List Char} (h : ∀ d ∈ digits, d < '8') :
    digitsValue 8 digits = digitsValue 10 digits ↔ digitsValue 10 digits < 8 := by
  cases digits using List.reverseRecOn with
  | nil => exact iff_of_true rfl (by decide)
  | append_singleton digits c =>
    have hle := digitsValue_eight_le digits
    have hc : digitValue c < 8 := by
      have hlt : c.toNat < '8'.toNat := h c (by simp)
      have height : '8'.toNat = 56 := rfl
      have hzero : '0'.toNat = 48 := rfl
      rw [digitValue]
      omega
    rw [digitsValue_concat, digitsValue_concat]
    omega

theorem DecimalInteger.isDigit (h : DecimalInteger whole) : ∀ d ∈ whole, d.isDigit = true := by
  cases h with
  | zero => simp
  | nonZero _ h => exact h
  | nonOctal h _ => simpa using h

theorem DecimalInteger.ne_nil (h : DecimalInteger whole) : whole ≠ [] := by
  cases h <;> exact List.cons_ne_nil _ _

theorem isOctal_zero_cons {digits : List Char} :
    isOctal ('0' :: digits) = true ↔ digits ≠ [] ∧ ∀ d ∈ digits, d < '8' := by
  simp [isOctal, List.length_pos_iff]

theorem lt_of_isOctal {digits : List Char} (h : isOctal digits = true) : ∀ d ∈ digits, d < '8' := by
  simp only [isOctal, Bool.and_eq_true, List.all_eq_true, decide_eq_true_eq] at h
  exact h.2

theorem isOctal_cons_of_ne {c : Char} (hc : c ≠ '0') (digits : List Char) :
    isOctal (c :: digits) = false := by
  simp [isOctal, hc]

theorem decimalInteger_iff (hw : ∀ d ∈ whole, d.isDigit = true) :
    DecimalInteger whole ↔ whole ≠ [] ∧ isOctal whole = false := by
  constructor
  · intro h
    cases h with
    | zero => decide
    | nonZero hne _ => exact ⟨List.cons_ne_nil _ _, isOctal_cons_of_ne hne _⟩
    | nonOctal _ hd =>
      obtain ⟨d, hm, hle⟩ := hd
      refine ⟨List.cons_ne_nil _ _, Bool.eq_false_iff.mpr fun ho => ?_⟩
      exact absurd ((isOctal_zero_cons.mp ho).2 d hm) (not_lt.mpr hle)
  · rintro ⟨hne, hoctal⟩
    obtain ⟨c, digits, rfl⟩ := List.exists_cons_of_ne_nil hne
    by_cases hc : c = '0'
    · subst hc
      by_cases hnil : digits = []
      · subst hnil
        exact .zero
      · have hsome : ¬ ∀ d ∈ digits, d < '8' := fun hall => by
          rw [isOctal_zero_cons.mpr ⟨hnil, hall⟩] at hoctal
          cases hoctal
        push Not at hsome
        exact .nonOctal (fun d hd => hw d (List.mem_cons_of_mem _ hd)) hsome
    · exact .nonZero hc hw

theorem point_inj {whole' fraction' : List Char} (hw : ∀ d ∈ whole, d.isDigit = true)
    (hw' : ∀ d ∈ whole', d.isDigit = true)
    (h : whole ++ '.' :: fraction = whole' ++ '.' :: fraction') :
    whole = whole' ∧ fraction = fraction' := by
  have htake := congrArg (List.takeWhile Char.isDigit) h
  rw [List.takeWhile_append_of_pos hw, List.takeWhile_append_of_pos hw'] at htake
  obtain rfl : whole = whole' := by simpa using htake
  exact ⟨rfl, List.cons.inj (List.append_cancel_left h) |>.2⟩

theorem point_not_mem (hw : ∀ d ∈ whole, d.isDigit = true) : '.' ∉ whole := fun hm =>
  Bool.false_ne_true (hw '.' hm)

theorem numeral_whole_iff (hw : ∀ d ∈ whole, d.isDigit = true) :
    Numeral whole q ↔
      if isOctal whole then q = digitsValue 8 whole else whole ≠ [] ∧ q = digitsValue 10 whole := by
  constructor
  · intro h
    cases h with
    | @octal digits hne hd =>
      rw [if_pos (isOctal_zero_cons.mpr ⟨hne, fun d hm => (hd d hm).2⟩), digitsValue_zero_cons]
    | integer hi =>
      obtain ⟨hne, hoctal⟩ := (decimalInteger_iff hw).mp hi
      rw [hoctal, if_neg Bool.false_ne_true]
      exact ⟨hne, rfl⟩
    | point _ _ => exact absurd (by simp) (point_not_mem hw)
    | fraction _ _ => exact absurd (by simp) (point_not_mem hw)
  · intro h
    split_ifs at h with hoctal
    · subst h
      cases whole with
      | nil => cases hoctal
      | cons c digits =>
        by_cases hc : c = '0'
        · subst hc
          obtain ⟨hne, hd⟩ := isOctal_zero_cons.mp hoctal
          rw [digitsValue_zero_cons]
          exact .octal hne fun d hm => ⟨hw d (List.mem_cons_of_mem _ hm), hd d hm⟩
        · rw [isOctal_cons_of_ne hc] at hoctal
          cases hoctal
    · obtain ⟨hne, rfl⟩ := h
      exact .integer ((decimalInteger_iff hw).mpr ⟨hne, Bool.eq_false_iff.mpr hoctal⟩)

theorem numeral_point_iff (hw : ∀ d ∈ whole, d.isDigit = true)
    (hf : ∀ d ∈ fraction, d.isDigit = true) :
    Numeral (whole ++ '.' :: fraction) q ↔
      isOctal whole = false ∧ (whole ≠ [] ∨ fraction ≠ []) ∧
        q = digitsValue 10 whole + digitsValue 10 fraction / 10 ^ fraction.length := by
  constructor
  · intro h
    generalize hs : whole ++ '.' :: fraction = s at h
    have hpoint : '.' ∈ s := by simp [← hs]
    cases h with
    | octal _ hd =>
      refine absurd hpoint (point_not_mem ?_)
      simpa using fun d hm => (hd d hm).1
    | integer hi => exact absurd hpoint (point_not_mem hi.isDigit)
    | point hi _ =>
      obtain ⟨rfl, rfl⟩ := point_inj hw hi.isDigit hs
      obtain ⟨hne, hoctal⟩ := (decimalInteger_iff hw).mp hi
      exact ⟨hoctal, .inl hne, rfl⟩
    | @fraction digits hne _ =>
      obtain ⟨rfl, rfl⟩ := point_inj hw (by simp) (hs.trans (List.nil_append _).symm)
      exact ⟨rfl, .inr hne, by simp [digitsValue]⟩
  · rintro ⟨hoctal, hne, rfl⟩
    by_cases hnil : whole = []
    · subst hnil
      have hfraction : fraction ≠ [] := hne.resolve_left (absurd rfl)
      simpa [digitsValue] using Numeral.fraction hfraction hf
    · exact .point ((decimalInteger_iff hw).mpr ⟨hnil, hoctal⟩) hf

theorem DecimalInteger.head?_append_ne (h : DecimalInteger whole) (s : List Char) :
    (whole ++ s).head? ≠ some '-' := by
  obtain ⟨c, digits, rfl⟩ := List.exists_cons_of_ne_nil h.ne_nil
  intro he
  obtain rfl : c = '-' := Option.some.inj he
  exact Bool.false_ne_true (h.isDigit '-' List.mem_cons_self)

theorem Numeral.head?_ne (h : Numeral s q) : s.head? ≠ some '-' := by
  cases h with
  | octal => simp
  | integer hi => simpa using hi.head?_append_ne []
  | point hi _ => exact hi.head?_append_ne _
  | fraction => simp

theorem signedNumeral_iff (hs : s.head? ≠ some '-') : SignedNumeral s q ↔ Numeral s q := by
  refine ⟨fun h => ?_, .plain⟩
  cases h with
  | plain h => exact h
  | minus h => exact absurd rfl hs

theorem signedNumeral_minus_iff : SignedNumeral ('-' :: s) q ↔ Numeral s (-q) := by
  constructor
  · intro h
    cases h with
    | plain h => exact absurd rfl h.head?_ne
    | minus h => rwa [neg_neg]
  · intro h
    have hminus := SignedNumeral.minus h
    rwa [neg_neg] at hminus

theorem placeValue_append (place : Int) (s t : List Char) :
    placeValue place (s ++ t) = placeValue place s + placeValue (place - s.length) t := by
  induction s generalizing place with
  | nil => simp [placeValue]
  | cons c s ih =>
    rw [List.cons_append, placeValue, ih, placeValue, List.length_cons, add_assoc]
    congr 3
    push_cast
    ring

theorem placeValue_eq (place : Int) (digits : List Char) :
    placeValue place digits = digitsValue 10 digits * 10 ^ (place + 1 - digits.length) := by
  induction digits using List.reverseRecOn with
  | nil => simp [placeValue, digitsValue]
  | append_singleton digits c ih =>
    have hfirst : place + 1 - digits.length = place - digits.length + 1 := by ring
    have hlast : place + 1 - (digits ++ [c]).length = place - digits.length := by
      rw [List.length_append, List.length_singleton]
      push_cast
      ring
    rw [placeValue_append, ih, digitsValue_concat, hfirst, hlast, zpow_add_one₀ (by norm_num),
      placeValue, placeValue]
    push_cast
    ring

theorem placeValue_point (whole fraction : List Char) :
    placeValue (whole.length - 1) (whole ++ fraction) =
      digitsValue 10 whole + digitsValue 10 fraction / 10 ^ fraction.length := by
  have hwhole : (whole.length : Int) - 1 + 1 - whole.length = 0 := by ring
  have hfraction : (whole.length : Int) - 1 - whole.length + 1 - fraction.length =
      -fraction.length := by ring
  rw [placeValue_append, placeValue_eq, placeValue_eq, hwhole, hfraction, zpow_zero, mul_one,
    zpow_neg, zpow_natCast, div_eq_mul_inv]

theorem placeValue_whole (whole : List Char) :
    placeValue (whole.length - 1) (whole ++ []) = digitsValue 10 whole := by
  rw [placeValue_point]
  simp [digitsValue]

/-- A script reads the digits to the base ten unless they are octal after a zero and this makes a
difference. -/
theorem numeral_iff_placeValue (hw : ∀ d ∈ whole, d.isDigit = true)
    (h : Pointed whole fraction s) :
    (∀ q, Numeral s q ↔ q = placeValue (whole.length - 1) (whole ++ fraction)) ↔
      ¬ (isOctal whole = true ∧ ('.' ∈ s ∨ 8 ≤ digitsValue 10 whole)) := by
  cases h with
  | integer hne =>
    rw [placeValue_whole]
    simp only [numeral_whole_iff hw, point_not_mem hw, false_or]
    by_cases hoctal : isOctal whole = true
    · have hvalue := digitsValue_eight_eq_iff (lt_of_isOctal hoctal)
      simp only [hoctal, if_true, true_and, not_le, ← hvalue]
      refine ⟨fun h => Nat.cast_inj.mp ((h _).mp rfl), fun h q => ?_⟩
      rw [h]
    · simp [hoctal, hne]
  | point hne hf =>
    rw [placeValue_point]
    simp only [numeral_point_iff hw hf]
    by_cases hoctal : isOctal whole = true
    · simp [hoctal]
    · simp [hoctal, hne]

end

end Script

open Script

namespace Atom

def unsigned (word : List Char) : List Char := if word.head? = some '-' then word.tail else word

/-- The digits before the point. -/
def whole (word : List Char) : List Char := (unsigned word).takeWhile Char.isDigit

/-- The digits after the point. -/
def fraction (word : List Char) : List Char := ((unsigned word).dropWhile Char.isDigit).tail

/-- The number that a word writes to the base ten. -/
def decimal (word : List Char) : ℚ :=
  (if word.head? = some '-' then -1 else 1) *
    placeValue ((whole word).length - 1) (whole word ++ fraction word)

/-- A script reads the digits before the point to the base eight, which makes a difference if there
is a point or they are worth eight or more. -/
def ReadsOctal (word : List Char) : Prop :=
  isOctal (whole word) = true ∧ ('.' ∈ word ∨ 8 ≤ digitsValue 10 (whole word))

theorem unsigned_of_head?_ne {word : List Char} (h : word.head? ≠ some '-') :
    unsigned word = word := if_neg h

/-- A number word is the digits before the point and perhaps a point and the digits after it, with a
minus sign before them or none. -/
theorem isNumber_cases {word : List Char} (h : isNumber word = true) :
    (∀ d ∈ whole word, d.isDigit = true) ∧
      Pointed (whole word) (fraction word) (unsigned word) := by
  refine ⟨fun d hd => List.mem_takeWhile_imp hd, ?_⟩
  have hcut : unsigned word = whole word ++ (unsigned word).dropWhile Char.isDigit :=
    List.takeWhile_append_dropWhile.symm
  have hunsigned : (if word.head? = some '-' then word.tail else word) = unsigned word := rfl
  simp only [isNumber, hunsigned] at h
  split at h
  · next hdrop =>
    rw [hdrop, List.append_nil] at hcut
    have hfraction : fraction word = [] := by rw [fraction, hdrop]; rfl
    have hne : whole word ≠ [] := by rw [← hcut]; simpa using h
    rw [hfraction, hcut]
    exact .integer hne
  · next digits hdrop =>
    rw [hdrop] at hcut
    have hfraction : fraction word = digits := by rw [fraction, hdrop]; rfl
    simp only [Bool.and_eq_true, decide_eq_true_eq, List.all_eq_true] at h
    rw [hfraction, hcut]
    exact .point h.1 h.2
  · cases h

/-- A number word stands in a script for the number that it writes to the base ten, and for no
other, unless its digits are read as octal ones. -/
theorem javascript_number_iff {word : String} (h : isNumber word.toList = true) :
    (∀ q, SignedNumeral (number word).javascript.toList q ↔ q = decimal word.toList) ↔
      ¬ ReadsOctal word.toList := by
  obtain ⟨hw, hpointed⟩ := isNumber_cases h
  have hiff := numeral_iff_placeValue hw hpointed
  change (∀ q, SignedNumeral word.toList q ↔ _) ↔ _
  rw [ReadsOctal, decimal]
  by_cases hminus : word.toList.head? = some '-'
  · have hword : word.toList = '-' :: unsigned word.toList := by
      rw [unsigned, if_pos hminus]
      exact (List.cons_head?_tail hminus).symm
    have hpoint : '.' ∈ word.toList ↔ '.' ∈ unsigned word.toList := by
      conv_lhs => rw [hword]
      simp
    have hsigned (q : ℚ) : SignedNumeral word.toList q ↔ Numeral (unsigned word.toList) (-q) := by
      conv_lhs => rw [hword]
      exact signedNumeral_minus_iff
    rw [if_pos hminus, hpoint, ← hiff]
    simp only [hsigned, neg_one_mul]
    -- Each number is the negative of one, so `q` on one side is taken as `-q` on the other.
    exact ⟨fun h q => by simpa using h (-q), fun h q => by rw [h, neg_eq_iff_eq_neg]⟩
  · rw [unsigned_of_head?_ne hminus] at hiff
    simp only [signedNumeral_iff hminus, if_neg hminus, one_mul]
    exact hiff

theorem javascript_number_iff_nonOctal :
    isNumber "-08.50".toList = true ∧ ¬ ReadsOctal "-08.50".toList ∧
      decimal "-08.50".toList = -17 / 2 ∧
      ∀ q, SignedNumeral (number "-08.50").javascript.toList q ↔ q = -17 / 2 := by
  have hnumber : isNumber "-08.50".toList = true := by decide
  have hoctal : ¬ ReadsOctal "-08.50".toList := fun h => absurd h.1 (by decide)
  have hdecimal : decimal "-08.50".toList = -17 / 2 := by
    have hwhole : digitsValue 10 (whole "-08.50".toList) = 8 := by decide
    have hfraction : digitsValue 10 (fraction "-08.50".toList) = 50 := by decide
    have hlength : (fraction "-08.50".toList).length = 2 := by decide
    rw [decimal, placeValue_point, hwhole, hfraction, hlength, if_pos (by decide)]
    norm_num
  refine ⟨hnumber, hoctal, hdecimal, fun q => ?_⟩
  rw [(javascript_number_iff hnumber).mpr hoctal q, hdecimal]

/-- A program that prints ten prints eight, and no script can read the half after the same
digits. -/
theorem reads_ten_as_eight :
    isNumber "010".toList = true ∧ decimal "010".toList = 10 ∧
      compile "print 010" .javascript = .ok "VM.print(010);\n" ∧
      Numeral "010".toList 8 ∧ ¬ SignedNumeral (number "010").javascript.toList 10 ∧
      isNumber "010.5".toList = true ∧
      ∀ q, ¬ SignedNumeral (number "010.5").javascript.toList q := by
  have hdigits : ∀ d ∈ "010".toList, d.isDigit = true := List.all_eq_true.mp (by decide)
  have hdecimal : decimal "010".toList = 10 := by
    have hwhole : digitsValue 10 (whole "010".toList) = 10 := by decide
    have hfraction : fraction "010".toList = [] := by decide
    rw [decimal, hfraction, placeValue_whole, hwhole, if_neg (by decide)]
    norm_num
  have hnumeral (q : ℚ) : Numeral "010".toList q ↔ q = 8 := by
    have height : digitsValue 8 "010".toList = 8 := by decide
    rw [numeral_whole_iff hdigits, if_pos (by decide), height, Nat.cast_ofNat]
  refine ⟨by decide, hdecimal, by decide +kernel, (hnumeral 8).mpr rfl, fun h => ?_, by decide,
    fun q h => ?_⟩
  · have hten := (hnumeral 10).mp ((signedNumeral_iff (by decide)).mp h)
    norm_num at hten
  · have hpoint : Numeral ("010".toList ++ '.' :: ['5']) q :=
      (signedNumeral_iff (by decide)).mp h
    exact absurd ((numeral_point_iff hdigits (by simp)).mp hpoint).1 (by decide)

end Atom

end Wordy
