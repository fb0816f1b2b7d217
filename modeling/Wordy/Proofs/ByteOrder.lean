import Mathlib
import Wordy.Phrasebook

/-! The order of texts by their bytes. In UTF-8 the bytes of a character compare as the characters
do, and those of neither begin those of the other. So texts that increase character by character
increase byte by byte. -/

namespace Wordy

namespace Text

theorem ofNat_lt_ofNat {a b : Nat} (ha : a < 256) (hb : b < 256) :
    UInt8.ofNat a < UInt8.ofNat b ↔ a < b := by
  rw [UInt8.lt_iff_toNat_lt, UInt8.toNat_ofNat', UInt8.toNat_ofNat', Nat.mod_eq_of_lt ha,
    Nat.mod_eq_of_lt hb]

theorem ofNat_eq_ofNat {a b : Nat} (ha : a < 256) (hb : b < 256) :
    UInt8.ofNat a = UInt8.ofNat b ↔ a = b := by
  rw [← UInt8.toNat_inj, UInt8.toNat_ofNat', UInt8.toNat_ofNat', Nat.mod_eq_of_lt ha,
    Nat.mod_eq_of_lt hb]

theorem utf8EncodeChar_append_lt {c d : Char} (h : c < d) (s t : List UInt8) :
    String.utf8EncodeChar c ++ s < String.utf8EncodeChar d ++ t := by
  have hlt : c.val.toNat < d.val.toNat := UInt32.lt_iff_toNat_lt.mp h
  have hd : d.val.toNat < 0x110000 := by
    have := d.valid
    simp only [UInt32.isValidChar, Nat.isValidChar] at this
    omega
  simp only [String.utf8EncodeChar]
  generalize c.val.toNat = v at hlt
  generalize d.val.toNat = w at hlt hd
  -- The continuation bytes are digits to the base 64.
  have hthird (n : Nat) : n / 4096 = n / 64 / 64 := by omega
  have hfourth (n : Nat) : n / 262144 = n / 64 / 64 / 64 := by omega
  simp only [hthird, hfourth]
  split_ifs <;>
    simp (disch := omega) only [List.cons_append, List.nil_append, List.cons_lt_cons_iff,
      ofNat_lt_ofNat, ofNat_eq_ofNat] <;>
    omega

theorem flatMap_utf8EncodeChar_lt {s t : List Char} (h : s < t) :
    s.flatMap String.utf8EncodeChar < t.flatMap String.utf8EncodeChar := by
  induction h with
  | @nil d t =>
    obtain ⟨b, bs, hb⟩ := List.exists_cons_of_ne_nil (String.utf8EncodeChar_ne_nil (c := d))
    rw [List.flatMap_nil, List.flatMap_cons, hb]
    exact List.nil_lt_cons _ _
  | rel h =>
    rw [List.flatMap_cons, List.flatMap_cons]
    exact utf8EncodeChar_append_lt h _ _
  | cons _ ih =>
    rw [List.flatMap_cons, List.flatMap_cons]
    exact List.append_left_lt ih

/-- The bytes of a text in UTF-8. -/
def utf8 (s : String) : List UInt8 := s.toList.flatMap String.utf8EncodeChar

theorem utf8_lt_utf8 {s t : String} (h : s < t) : utf8 s < utf8 t :=
  flatMap_utf8EncodeChar_lt (String.lt_iff_toList_lt.mp h)

end Text

namespace Phrasebook

theorem pairwise_insertForm (text : String) {forms : List String}
    (h : forms.Pairwise (· < ·)) : (insertForm text forms).Pairwise (· < ·) := by
  induction forms with
  | nil => simp [insertForm]
  | cons form forms ih =>
    obtain ⟨hform, hforms⟩ := List.pairwise_cons.mp h
    rw [insertForm]
    split
    · next hlt =>
      refine List.pairwise_cons.mpr ⟨fun other ho => ?_, h⟩
      rcases List.mem_cons.mp ho with rfl | ho
      · exact hlt
      · exact hlt.trans (hform other ho)
    · next hlt =>
      split
      · exact h
      · next hne =>
        refine List.pairwise_cons.mpr ⟨fun other ho => ?_, ih hforms⟩
        rcases mem_insertForm.mp ho with rfl | ho
        · exact lt_of_le_of_ne (not_lt.mp hlt) fun he => hne he.symm
        · exact hform other ho

variable {book : Phrasebook}

theorem pairwise_forms (book : Phrasebook) (tokens : List Token) :
    (book.forms tokens).Pairwise fun a b => Text.utf8 a < Text.utf8 b := by
  have h : (book.forms tokens).Pairwise (· < ·) := by
    induction tokens with
    | nil => exact .nil
    | cons token tokens ih => exact pairwise_insertForm _ ih
  exact h.imp Text.utf8_lt_utf8

end Phrasebook

end Wordy
