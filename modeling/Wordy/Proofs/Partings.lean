import Mathlib
import Wordy.Proofs.WrittenForms

/-! Two texts that are one up to a point. What is read before the point in the one text is read in
the other one too, if a word that ends at the point ends there in both. -/

namespace Wordy

open Text Phrasebook

namespace Text

variable {r k pre : List Char}

theorem exists_append_of_suffix {s : List Char} (hs : s <:+ pre ++ r)
    (hl : r.length ≤ s.length) : ∃ mid, s = mid ++ r := by
  obtain ⟨mid, h⟩ := List.suffix_of_suffix_length_le (List.suffix_append pre r) hs hl
  exact ⟨mid, h.symm⟩

theorem skipBlank_shift (h : skipBlank (pre ++ r) = pre ++ r) (hne : pre ≠ []) :
    skipBlank (pre ++ k) = pre ++ k := by
  cases pre with
  | nil => exact absurd rfl hne
  | cons c pre =>
    have hc : isBlank c = false := by
      by_contra hc
      have hle := (List.dropWhile_suffix isBlank (l := pre ++ r)).length_le
      rw [List.cons_append, skipBlank, List.dropWhile_cons_of_pos (by simpa using hc)] at h
      rw [h, List.length_cons] at hle
      omega
    simp [skipBlank, hc]

theorem skipBlank_suffix_skipBlank {s t : List Char} (h : s <:+ t) :
    skipBlank s <:+ skipBlank t := by
  obtain ⟨u, rfl⟩ := h
  induction u with
  | nil => exact List.suffix_refl _
  | cons c u ih =>
    by_cases hc : isBlank c = true
    · rwa [List.cons_append, skipBlank, skipBlank, List.dropWhile_cons_of_pos hc]
    · rw [List.cons_append, skipBlank, skipBlank, List.dropWhile_cons_of_neg hc]
      exact (skipBlank_suffix s).trans ((List.suffix_append u s).trans (List.suffix_cons c _))

theorem word_shift (hk : Break k) {mid : List Char} (h : afterWord (pre ++ r) = mid ++ r) :
    word (pre ++ k) = word (pre ++ r) ∧ afterWord (pre ++ k) = skipBlank (mid ++ k) := by
  obtain ⟨gap, hgap, heq, hnil⟩ := exists_gap (pre ++ r)
  rw [h] at heq hnil
  have hpre : pre = word (pre ++ r) ++ (gap ++ mid) := by
    apply (List.append_left_inj r).mp
    simpa using heq
  have hbreak : Break (gap ++ (mid ++ k)) := by
    cases gap with
    | nil =>
      obtain ⟨rfl, -⟩ := List.append_eq_nil_iff.mp (hnil rfl)
      exact hk
    | cons c gap => exact .cons (hgap c List.mem_cons_self)
  have hs := solid_word (pre ++ r)
  have hk' : pre ++ k = word (pre ++ r) ++ (gap ++ (mid ++ k)) := by
    conv_lhs => rw [hpre]
    simp
  rw [hk', hs.word_append hbreak, hs.afterWord_append hbreak, hgap.skipBlank_append]
  exact ⟨rfl, rfl⟩

theorem ne_nil_of_afterWord {mid : List Char} (hw : word (pre ++ r) ≠ [])
    (h : afterWord (pre ++ r) = mid ++ r) : pre ≠ [] := by
  rintro rfl
  obtain ⟨gap, -, heq, -⟩ := exists_gap r
  have hl := congrArg List.length heq
  have hr := congrArg List.length h
  have := List.length_pos_iff.mpr hw
  simp only [List.nil_append, List.length_append] at hl hr this
  omega

end Text

namespace Phrase

variable {r k pre mid : List Char}

theorem afterWords?_shift {ws : List (List Char)} (hp : Plain ws) (hk : Break k)
    (hs : skipBlank (pre ++ r) = pre ++ r) (h : afterWords? ws (pre ++ r) = some (mid ++ r)) :
    afterWords? ws (skipBlank (pre ++ k)) = some (skipBlank (mid ++ k)) := by
  induction ws generalizing pre with
  | nil =>
    obtain rfl := List.append_cancel_right (Option.some.inj h)
    rfl
  | cons w ws ih =>
    rw [afterWords?] at h
    split at h
    · next hl =>
      have hlen : r.length ≤ (afterWord (pre ++ r)).length := by
        have hle := (afterWords?_suffix h).length_le
        simp only [List.length_append] at hle
        omega
      obtain ⟨next, hn⟩ := exists_append_of_suffix (afterWord_suffix (pre ++ r)) hlen
      have hword : word (pre ++ r) ≠ [] := by
        intro he
        rw [he] at hl
        exact (hp w List.mem_cons_self).1 (by simpa [Lowers] using hl.symm)
      obtain ⟨hw, ha⟩ := word_shift hk hn
      rw [skipBlank_shift hs (ne_nil_of_afterWord hword hn), afterWords?, hw, if_pos hl, ha]
      rw [hn] at h
      refine ih (fun u hu => hp u (List.mem_cons_of_mem w hu)) ?_ h
      rw [← hn, skipBlank_afterWord]
    · cases h

end Phrase

namespace Lexeme.Next

variable {text other r k pre mid rest : List Char}

theorem shift_token {t : Token} (hspelled : t ∈ Token.spelled) (hk : Break k)
    (hs : skipBlank (pre ++ r) = pre ++ r) (ht : skipBlank text = pre ++ r)
    (ho : skipBlank other = skipBlank (pre ++ k))
    (h : standard.after? t (skipBlank text) = some rest) (hr : skipBlank rest = mid ++ r) :
    ∃ rest', Lexeme.Next standard other (.token t) rest' ∧
      skipBlank rest' = skipBlank (mid ++ k) := by
  rw [standard_after? hspelled, ht] at h
  rw [Phrase.skipBlank_of_afterWords? (Token.words_ne_nil t) h] at hr
  subst hr
  refine ⟨skipBlank (mid ++ k), .token ?_, skipBlank_skipBlank _⟩
  rw [ho, standard_after? hspelled]
  exact Phrase.afterWords?_shift (Token.plain_words hspelled) hk hs h

theorem shift_word (hk : Break k) (hs : skipBlank (pre ++ r) = pre ++ r)
    (ho : skipBlank other = skipBlank (pre ++ k)) (hword : Text.word (pre ++ r) ≠ [])
    (hres : standard.isReserved (Text.word (pre ++ r)) = false)
    (hr : afterWord (pre ++ r) = mid ++ r) :
    ∃ rest', Lexeme.Next standard other (.word (.ofList (Text.word (pre ++ r)))) rest' ∧
      skipBlank rest' = skipBlank (mid ++ k) := by
  obtain ⟨hw, ha⟩ := word_shift hk hr
  rw [skipBlank_shift (k := k) hs (ne_nil_of_afterWord hword hr)] at ho
  have hne : skipBlank other ≠ [] := by
    rw [ho]
    intro hnil
    rw [← hw, hnil] at hword
    exact hword rfl
  have hn := Lexeme.Next.word hne (by rw [ho, hw]; exact hres)
  rw [ho, hw, ha] at hn
  exact ⟨_, hn, skipBlank_skipBlank _⟩

/-- The closing quote is before the point, as what follows it reaches up to there. -/
theorem shift_quotation {contents after : List Char} (hs : skipBlank (pre ++ r) = pre ++ r)
    (ho : skipBlank other = skipBlank (pre ++ k))
    (h : Reader.quoted? (pre ++ r) = some (contents, after)) (hr : skipBlank after = mid ++ r) :
    ∃ rest', Lexeme.Next standard other (.quotation (.ofList contents)) rest' ∧
      skipBlank rest' = skipBlank (mid ++ k) := by
  obtain ⟨quote, hq, hc, heq⟩ := Reader.quoted?_eq_some h
  have hsplit : after = after.takeWhile isBlank ++ (mid ++ r) := by
    rw [← hr]
    exact List.takeWhile_append_dropWhile.symm
  have hpre : pre = quote :: (contents ++ quote :: (after.takeWhile isBlank ++ mid)) := by
    apply (List.append_left_inj r).mp
    rw [heq]
    conv_lhs => rw [hsplit]
    simp
  rw [skipBlank_shift (k := k) hs (by rw [hpre]; simp), hpre] at ho
  have hgap : Blank (after.takeWhile isBlank) := fun c hm => List.mem_takeWhile_imp hm
  have hquoted : Reader.quoted? (quote :: (contents ++ quote ::
      (after.takeWhile isBlank ++ (mid ++ k)))) =
        some (contents, after.takeWhile isBlank ++ (mid ++ k)) := Reader.quoted?_append hq hc
  refine ⟨_, .quotation ?_, (skipBlank_skipBlank _).trans (hgap.skipBlank_append _)⟩
  rw [ho, ← hquoted]
  simp

/-- What comes next before the point comes next in the other text. -/
theorem shift {l : Lexeme} (hn : l.Next standard text rest) (he : .token .endOfInput ≠ l)
    (hk : Break k) (ht : skipBlank text = pre ++ r) (ho : skipBlank other = skipBlank (pre ++ k))
    (hr : skipBlank rest = mid ++ r) :
    ∃ rest', l.Next standard other rest' ∧ skipBlank rest' = skipBlank (mid ++ k) := by
  have hs : skipBlank (pre ++ r) = pre ++ r := by rw [← ht, skipBlank_skipBlank]
  cases hn with
  | @token t _ h =>
    have hspelled : t ∈ Token.spelled := Token.mem_spelled.mpr fun e => he (by rw [e])
    exact shift_token hspelled hk hs ht ho h hr
  | word hne hres =>
    have hword := word_skipBlank_ne_nil hne
    rw [skipBlank_afterWord, ht] at hr
    rw [ht] at hres hword ⊢
    exact shift_word hk hs ho hword hres hr
  | @quotation contents after h =>
    rw [skipBlank_skipBlank] at hr
    rw [ht] at h
    exact shift_quotation hs ho h hr

end Lexeme.Next

/-- What is read up to the point is read in the other text. -/
theorem Reads.shift {ls : List Lexeme} {text other r k pre rest : List Char}
    (hr : Reads standard ls text rest) (he : .token .endOfInput ∉ ls) (hk : Break k)
    (ht : skipBlank text = pre ++ r) (ho : skipBlank other = skipBlank (pre ++ k))
    (hrest : skipBlank rest = r) :
    ∃ rest', Reads standard ls other rest' ∧ skipBlank rest' = skipBlank k := by
  induction hr generalizing other pre with
  | nil =>
    obtain rfl : pre = [] := by simpa [hrest] using ht.symm
    exact ⟨other, .nil, ho⟩
  | @cons l ls text mid rest hn hs ih =>
    rw [List.mem_cons, not_or] at he
    have hsuffix : skipBlank mid <:+ pre ++ r := ht ▸ skipBlank_suffix_skipBlank hn.suffix
    have hlast : r <:+ skipBlank mid := hrest ▸ skipBlank_suffix_skipBlank hs.suffix
    obtain ⟨next, hnext⟩ := exists_append_of_suffix hsuffix hlast.length_le
    obtain ⟨mid', hn', hmid'⟩ := hn.shift he.1 hk ht ho hnext
    obtain ⟨rest', hs', hrest'⟩ := ih he.2 hnext hmid' hrest
    exact ⟨rest', .cons hn' hs', hrest'⟩

end Wordy
