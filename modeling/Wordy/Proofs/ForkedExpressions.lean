import Mathlib
import Wordy.Proofs.Fork

/-! Expressions on two texts that part at a point. A comparison that ends at the point can be the
first part of a longer one in the right text. The left reader is astray then, by the token "or", for
which no reader looks. -/

namespace Wordy

open Text Phrasebook Reader Fork

variable {fork : Fork} {β : Type} {P Q T : List Token}

namespace Atom

/-- A quoted text before the point is one in the right text as well, which starts with no phrase. -/
theorem beyond_of_quotation {c : Cursor} {tokens : List Token} {contents rest : List Char}
    (hspelled : ∀ t ∈ tokens, t ∈ Token.spelled) (hs : fork.Strayed tokens c)
    (hq : quoted? c.ahead = some (contents, rest)) : fork.Beyond ⟨skipBlank rest, []⟩ := by
  have hn : (Lexeme.quotation (.ofList contents)).Next standard c.rest (skipBlank rest) :=
    .quotation hq
  have hsuffix : skipBlank (skipBlank rest) <:+ c.ahead := skipBlank_suffix_skipBlank hn.suffix
  rcases hs with hs | ⟨pre, hpre, t, ht, hafter⟩
  · exact hs.of_suffix hsuffix
  · rcases beyond_or_append (d := ⟨skipBlank rest, []⟩) hpre hsuffix with hb | ⟨mid, hmid⟩
    · exact hb
    · obtain ⟨quote, hquote, -, heq⟩ := quoted?_eq_some hq
      have hahead : skipBlank (pre ++ fork.left) = pre ++ fork.left := by
        rw [← hpre, Cursor.ahead, skipBlank_skipBlank]
      cases pre with
      | nil =>
        have hlen := congrArg List.length (hpre.symm.trans heq)
        have hle := (skipBlank_suffix rest).length_le
        have hmid' := congrArg List.length hmid
        simp only [Cursor.ahead, skipBlank_skipBlank, List.nil_append, List.length_cons,
          List.length_append] at hlen hmid'
        omega
      | cons d pre =>
        obtain rfl : quote = d := (List.cons.inj (heq.symm.trans hpre)).1
        rw [skipBlank_shift hahead (by simp)] at hafter
        exact absurd (standard_after?_of_quote (hspelled t ht) hquote _) hafter

theorem loses_quotation? {g : Option String → Reader β} (h : Short (T ++ P))
    (hsome : ∀ contents, fork.Loses [] [] (g (some contents)) Q)
    (hnone : fork.Loses T P (g none) Q) : fork.Loses T P (quotation? >>= g) Q := by
  intro c hc hs
  cases hq : quoted? c.ahead with
  | some quoted =>
    rw [bind_of_ok (quotation?_eq_of_some hq)]
    refine hsome _ (List.Subset.refl _) (.inl (beyond_of_quotation (fun t ht => ?_) hs hq))
    rcases List.mem_append.mp ht with ht | ht
    · exact (h t (List.mem_append_left P ht)).1
    · exact (h t (List.mem_append_right T (hc ht))).1
  | none =>
    rw [bind_of_ok (quotation?_eq_of_none hq)]
    exact hnone hc hs

theorem loses_readWord (h : Short (T ++ P)) : fork.Loses T P (readWord standard) [] := by
  unfold readWord
  refine .ahead fun start => (Loses.name h).bind fun w => ?_
  cases ofWord? w with
  | some a => exact .pure (List.Subset.refl _)
  | none => exact .fail (by nofun)

/-- The tokens that can be looked for in vain where an atom stands. -/
def before : List Token := [.orWord, .notWord] ++ [true, false].map truthToken

theorem short_before : Short before := by
  unfold Short
  decide

theorem loses_read (hT : T ⊆ [.orWord]) : fork.Loses T [.notWord] (read standard) [] := by
  have hsub : T ++ [.notWord] ⊆ [Token.orWord, .notWord] :=
    List.append_subset.mpr ⟨List.Subset.trans hT (by simp), by simp⟩
  have hshort : Short (T ++ ([.notWord] ++ [true, false].map truthToken)) := by
    intro t ht
    rw [← List.append_assoc] at ht
    refine short_before t ?_
    rcases List.mem_append.mp ht with ht | ht
    · exact List.mem_append_left _ (hsub ht)
    · exact List.mem_append_right _ ht
  unfold read
  refine .take? (fun v _ => ⟨by cases v <;> decide, fun u hu => ?_⟩)
    (fun _ _ => .pure (List.Subset.refl _)) ?_
  · exact (show ∀ u ∈ [Token.orWord, .notWord], (truthToken v).Apart u by cases v <;> decide) u
      (hsub hu)
  · exact loses_quotation? hshort (fun _ => .pure (List.Subset.refl _)) (loses_readWord hshort)

theorem follows_read : fork.Follows [.notWord] (read standard) (read standard) [] := by
  refine .of_lexeme (loses_read (by simp)) (fun c e s he => (read_eq_error he).1) fun c a d hr => ?_
  obtain ⟨ls, ⟨l, rfl, hl⟩, hreads⟩ := yields_read hr
  refine ⟨tried_of_read hr, l, hl.endOfInput_ne, ?_, fun n => admits_read hl⟩
  cases hreads with
  | cons hn hs =>
    cases hs
    exact hn

end Atom

namespace BinaryOperator

variable {g g' : Option BinaryOperator → Reader β}

theorem clear : Clear token all [] :=
  fun o _ => ⟨by cases o <;> decide, by simp⟩

theorem follows_take? (hsome : ∀ o, fork.Follows [] (g (some o)) (g' (some o)) Q)
    (hor : ∀ o, fork.Loses [.orWord] [] (g (some o)) Q)
    (hnone : fork.Follows tokens (g none) (g' none) Q) :
    fork.Follows [] (take? standard token all >>= g) (take? standard token all >>= g') Q := by
  refine .take?_of clear (fun o _ s rest rest' mid h hmid hrest' => ?_) (fun o _ => hsome o) hnone
  obtain ⟨earlier, later, hall, he⟩ := exists_earlier o
  by_cases hfirst : ∀ p ∈ earlier, standard.after? p.token s = none
  · left
    rw [hall, first_append_cons hfirst h]
  · right
    push Not at hfirst
    obtain ⟨p, hp, hne⟩ := hfirst
    obtain ⟨longer, hlonger⟩ := Option.ne_none_iff_exists'.mp hne
    rcases he p hp with hapart | hpair
    · exact absurd (standard_after?_eq_none hapart h) hne
    · obtain ⟨r, hr⟩ := standard_after?_or hpair h hlonger
      have hmem : o.token ∈ Token.spelled := (clear o (by cases o <;> decide)).1
      have hskip : skipBlank rest' = rest' := by
        rw [standard_after? hmem] at h
        exact Phrase.skipBlank_of_afterWords? (Token.words_ne_nil _) h
      refine hor o (List.Subset.refl _) (.inr ⟨mid, hmid, .orWord, by simp, ?_⟩)
      rw [← hrest', hskip, hr]
      exact Option.some_ne_none r

end BinaryOperator

namespace Link

variable {k k' : Link ⊕ Atom → Reader β}

theorem loses_read (hT : T ⊆ [.orWord]) (hlink : ∀ link, fork.Loses [] [] (k (.inl link)) Q)
    (hlast : ∀ a, fork.Loses [] BinaryOperator.tokens (k (.inr a)) Q) :
    fork.Loses T [] (Link.read standard >>= k) Q := by
  unfold Link.read
  rw [bind_assoc]
  refine .accept (by decide) (fun u hu => ?_) ?_ ?_
  · rw [List.append_nil] at hu
    obtain rfl := List.mem_singleton.mp (hT hu)
    decide
  · exact hlink .negation
  · simp only [Bool.false_eq_true, if_false, bind_assoc]
    refine (Atom.loses_read hT).bind fun a => .take? BinaryOperator.clear (fun o _ => ?_) ?_
    · exact hlink (.operation a o)
    · exact hlast a

theorem follows_read (hlink : ∀ link, fork.Follows [] (k (.inl link)) (k' (.inl link)) Q)
    (hor : ∀ link, fork.Loses [.orWord] [] (k (.inl link)) Q)
    (hlast : ∀ a, fork.Follows BinaryOperator.tokens (k (.inr a)) (k' (.inr a)) Q) :
    fork.Follows [] (Link.read standard >>= k) (Link.read standard >>= k') Q := by
  unfold Link.read
  rw [bind_assoc, bind_assoc]
  refine .accept (by decide) (by simp) ?_ ?_
  · exact hlink .negation
  · simp only [Bool.false_eq_true, if_false, bind_assoc]
    refine Atom.follows_read.bind fun a =>
      BinaryOperator.follows_take? (fun o => ?_) (fun o => ?_) ?_
    · exact hlink (.operation a o)
    · exact hor (.operation a o)
    · exact hlast a

end Link

namespace Expression

theorem loses_readChain (hT : T ⊆ [.orWord]) (start : List Char) (limit : Nat) :
    fork.Loses T [] (readChain standard start limit) BinaryOperator.tokens := by
  induction limit generalizing T with
  | zero => exact Link.loses_read hT (fun _ => .fail (by nofun)) fun _ => .pure (List.Subset.refl _)
  | succ limit ih =>
    refine Link.loses_read hT (fun link => ?_) fun _ => .pure (List.Subset.refl _)
    exact (ih (List.nil_subset _)).bind fun _ => .pure (List.Subset.refl _)

theorem follows_readChain (start start' : List Char) (limit : Nat) :
    fork.Follows [] (readChain standard start limit) (readChain standard start' limit)
      BinaryOperator.tokens := by
  induction limit with
  | zero =>
    exact Link.follows_read (fun _ => .fail (by nofun)) (fun _ => .fail (by nofun))
      fun _ => .pure (List.Subset.refl _)
  | succ limit ih =>
    refine Link.follows_read (fun link => ?_) (fun link => ?_) fun _ => .pure (List.Subset.refl _)
    · exact ih.bind fun _ => .pure (List.Subset.refl _)
    · exact (loses_readChain (List.Subset.refl _) start limit).bind fun _ =>
        .pure (List.Subset.refl _)

theorem follows_read :
    fork.Follows [] (read standard) (read standard) BinaryOperator.tokens :=
  .ahead fun start start' =>
    (follows_readChain start start' maxOperators).bind fun _ => .pure (List.Subset.refl _)

end Expression

end Wordy
