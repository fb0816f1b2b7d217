import Mathlib
import Wordy.Proofs.ByteOrder
import Wordy.Proofs.Calls
import Wordy.Proofs.WrittenForms

/-! Several candidates at once. The first of them that comes next is found. Among the operators,
of which some begin with the words of others, that is the one with the most words; of any other
candidates that are looked for together no two can come next, so that their order does not
matter. -/

namespace Wordy

open Phrasebook

/-- The phrase of the token comes next in the text. -/
def Token.Comes (t : Token) (text : List Char) : Prop := (standard.after? t text).isSome = true

/-- The candidates that are looked for together, but for the operators: those for an item of a
program, for a statement, for a type, for a truth value, for an initializer, and for what goes on
with a conditional. -/
def Token.choices : List (List Token) :=
  [Program.Opening.all.map Program.Opening.token, Opening.all.map Opening.token,
   BaseType.all.map BaseType.token, [true, false].map Atom.truthToken, [.equalTo, .initializedTo],
   [.butIf, .otherwise]]

namespace Token

variable {t u : Token} {text : List Char}

theorem comes_iff : t.Comes text ↔ ∃ rest, standard.after? t text = some rest :=
  Option.isSome_iff_exists

theorem Comes.not_apart (ht : t.Comes text) (hu : u.Comes text) : ¬ t.Apart u := by
  intro hapart
  obtain ⟨rest, ht⟩ := comes_iff.mp ht
  rw [Comes, standard_after?_eq_none hapart ht] at hu
  cases hu

theorem apart_of_mem {tokens : List Token} (hapart : tokens.Pairwise Apart) (ht : t ∈ tokens)
    (hu : u ∈ tokens) (hne : t ≠ u) : t.Apart u := by
  have hsymm : Std.Symm Apart := ⟨fun _ _ h => h.symm⟩
  exact hapart.forall ht hu hne

theorem words_length_lt_of_extensions :
    ∀ p ∈ extensions, p.1.words.length < p.2.words.length := by
  decide +kernel

theorem Comes.extensions (ht : t.Comes text) (hu : u.Comes text) (hne : t ≠ u) :
    (t, u) ∈ extensions ∨ (u, t) ∈ extensions := by
  by_contra hno
  rw [not_or] at hno
  exact ht.not_apart hu ⟨hne, hno⟩

end Token

namespace Phrasebook

variable {tokens order : List Token} {t u : Token} {text rest : List Char}

theorem not_comes_iff : ¬ t.Comes text ↔ standard.after? t text = none :=
  Option.not_isSome_iff_eq_none

theorem first_eq_none_iff :
    (standard.first text id tokens).2 = none ↔ ∀ t ∈ tokens, ¬ t.Comes text := by
  constructor
  · intro h t ht
    exact not_comes_iff.mpr (after?_eq_none_of_first h t ht)
  · intro h
    have hnone : ∀ t ∈ tokens, standard.after? (id t) text = none :=
      fun t ht => not_comes_iff.mp (h t ht)
    rw [first_eq_none hnone]

theorem exists_append_of_first (h : (standard.first text id tokens).2 = some (t, rest)) :
    t.Comes text ∧ ∃ earlier later, tokens = earlier ++ t :: later ∧
      ∀ u ∈ earlier, ¬ u.Comes text := by
  have hcomes : t.Comes text := Token.comes_iff.mpr ⟨rest, (mem_of_first_eq_some h).2⟩
  refine ⟨hcomes, ?_⟩
  induction tokens with
  | nil => cases h
  | cons v tokens ih =>
    rw [first] at h
    split at h
    · cases h
      exact ⟨[], tokens, rfl, by simp⟩
    · next hnone =>
      obtain ⟨earlier, later, rfl, hearlier⟩ := ih h
      exact ⟨v :: earlier, later, rfl, List.forall_mem_cons.mpr ⟨not_comes_iff.mpr hnone, hearlier⟩⟩

/-- Where no candidate begins a later one, the one that is found has more words than any other that
comes next. -/
theorem words_length_lt_of_first (horder : tokens.Pairwise fun t u => (t, u) ∉ Token.extensions)
    (h : (standard.first text id tokens).2 = some (t, rest)) (hu : u ∈ tokens)
    (hcomes : u.Comes text) (hne : u ≠ t) : u.words.length < t.words.length := by
  obtain ⟨htcomes, earlier, later, rfl, hearlier⟩ := exists_append_of_first h
  have hlater : ∀ v ∈ later, (t, v) ∉ Token.extensions :=
    (List.pairwise_cons.mp (List.pairwise_append.mp horder).2.1).1
  have hmem : u ∈ later := by
    rcases List.mem_append.mp hu with hu | hu
    · exact absurd hcomes (hearlier u hu)
    · exact (List.mem_cons.mp hu).resolve_left hne
  have hext : (u, t) ∈ Token.extensions :=
    (hcomes.extensions htcomes hne).resolve_right (hlater u hmem)
  exact Token.words_length_lt_of_extensions (u, t) hext

/-- The candidate with the most words of those that come next. -/
structure Longest (tokens : List Token) (text : List Char) (t : Token) : Prop where
  mem : t ∈ tokens
  comes : t.Comes text
  words_lt : ∀ u ∈ tokens, u.Comes text → u ≠ t → u.words.length < t.words.length

theorem first_longest_iff (horder : tokens.Pairwise fun t u => (t, u) ∉ Token.extensions) :
    (∃ rest, (standard.first text id tokens).2 = some (t, rest)) ↔ Longest tokens text t := by
  constructor
  · rintro ⟨rest, h⟩
    exact ⟨(mem_of_first_eq_some h).1, (exists_append_of_first h).1,
      fun u hu hcomes hne => words_length_lt_of_first horder h hu hcomes hne⟩
  · intro h
    -- Something is found, since `t` comes; were it another token, each would be the longer one.
    cases hfirst : (standard.first text id tokens).2 with
    | none => exact absurd h.comes (first_eq_none_iff.mp hfirst t h.mem)
    | some found =>
      obtain ⟨v, rest⟩ := found
      by_cases hne : t = v
      · rw [hne]
        exact ⟨rest, rfl⟩
      · have hshorter := words_length_lt_of_first horder hfirst h.mem h.comes hne
        have hlonger := h.words_lt v (mem_of_first_eq_some hfirst).1
          (exists_append_of_first hfirst).1 (Ne.symm hne)
        omega

/-- Where no two candidates can come next, another order of them finds the same. -/
theorem first_perm (hapart : tokens.Pairwise Token.Apart) (h : order.Perm tokens) :
    (standard.first text id order).2 = (standard.first text id tokens).2 := by
  cases hfirst : (standard.first text id tokens).2 with
  | none =>
    refine first_eq_none_iff.mpr fun t ht => ?_
    exact first_eq_none_iff.mp hfirst t (h.mem_iff.mp ht)
  | some found =>
    obtain ⟨t, rest⟩ := found
    obtain ⟨ht, hafter⟩ := mem_of_first_eq_some hfirst
    refine first_of_unique (h.mem_iff.mpr ht) (fun u hu hne => ?_) hafter
    have htu : t.Apart u := Token.apart_of_mem hapart ht (h.mem_iff.mp hu) (Ne.symm hne)
    exact standard_after?_eq_none htu hafter

theorem forms_perm {book : Phrasebook} (h : order.Perm tokens) :
    book.forms order = book.forms tokens := by
  have hirrefl : Std.Irrefl fun a b : String => Text.utf8 a < Text.utf8 b :=
    ⟨fun a => List.lt_irrefl _⟩
  have hantisymm : Std.Antisymm fun a b : String => Text.utf8 a < Text.utf8 b :=
    ⟨fun a b hab hba => absurd hab (List.lt_asymm hba)⟩
  refine (pairwise_forms book order).eq_of_mem_iff (pairwise_forms book tokens) fun form => ?_
  rw [mem_forms, mem_forms]
  simp only [h.mem_iff]

end Phrasebook

theorem BinaryOperator.tokens_ordered :
    tokens.Pairwise fun t u => (t, u) ∉ Token.extensions := by
  decide

theorem Token.choices_apart : ∀ tokens ∈ choices, tokens.Pairwise Apart := by
  decide

namespace Call

variable {source : List Char} {c : Cursor} {tokens order : List Token} {t : Token}

theorem peek_eq_token_iff_first :
    ((peek tokens).run .standard source c).1 = .token t ↔
      ∃ rest, (standard.first c.ahead id tokens).2 = some (t, rest) := by
  rw [run_peek]
  cases (standard.first c.ahead id tokens).2 with
  | none => simp [Answer.ofToken]
  | some found => simp [Answer.ofToken, Prod.ext_iff]

theorem peek_eq_nothing_iff_first :
    ((peek tokens).run .standard source c).1 = .nothing ↔
      (standard.first c.ahead id tokens).2 = none := by
  rw [run_peek]
  cases (standard.first c.ahead id tokens).2 with
  | none => simp [Answer.ofToken]
  | some found => simp [Answer.ofToken]

theorem peek_perm (hapart : tokens.Pairwise Token.Apart) (h : order.Perm tokens) :
    ((peek order).run .standard source c).1 = ((peek tokens).run .standard source c).1 := by
  rw [run_peek, run_peek, first_perm hapart h]

/-- Where nothing is found, the failure lists the same forms as well. -/
theorem extract_perm (hapart : tokens.Pairwise Token.Apart) (h : order.Perm tokens) :
    ((extract order).run .standard source c).1 = ((extract tokens).run .standard source c).1 := by
  have hfirst : (standard.first c.ahead id order).2 = (standard.first c.ahead id tokens).2 :=
    first_perm hapart h
  cases hf : (standard.first c.ahead id tokens).2 with
  | none =>
    rw [run_extract_of_none hf, run_extract_of_none (hfirst.trans hf),
      forms_perm (h.append_left c.tried)]
  | some found =>
    rw [run_extract_of_some hf, run_extract_of_some (hfirst.trans hf)]

end Call

/-- Wherever a cursor is, the operator that is found is the one with the most words among those that
come next there. Of any other candidates that are looked for together at most one comes next, and
they are found, or missed, in any order alike. -/
theorem peek_longest_and_perm (source : List Char) (c : Cursor) :
    (∀ t, ((Call.peek BinaryOperator.tokens).run .standard source c).1 = .token t ↔
        Longest BinaryOperator.tokens c.ahead t) ∧
      (((Call.peek BinaryOperator.tokens).run .standard source c).1 = .nothing ↔
        ∀ t ∈ BinaryOperator.tokens, ¬ t.Comes c.ahead) ∧
      ∀ tokens ∈ Token.choices,
        (∀ text, ∀ t ∈ tokens, ∀ u ∈ tokens, t.Comes text → u.Comes text → t = u) ∧
          ∀ order : List Token, order.Perm tokens →
            ((Call.peek order).run .standard source c).1 =
                ((Call.peek tokens).run .standard source c).1 ∧
              ((Call.extract order).run .standard source c).1 =
                ((Call.extract tokens).run .standard source c).1 := by
  refine ⟨fun t => ?_, ?_, fun tokens htokens => ⟨fun text t ht u hu htc huc => ?_, ?_⟩⟩
  · rw [Call.peek_eq_token_iff_first, first_longest_iff BinaryOperator.tokens_ordered]
  · rw [Call.peek_eq_nothing_iff_first, first_eq_none_iff]
  · by_contra hne
    exact htc.not_apart huc (Token.apart_of_mem (Token.choices_apart tokens htokens) ht hu hne)
  · intro order horder
    have hapart := Token.choices_apart tokens htokens
    exact ⟨Call.peek_perm hapart horder, Call.extract_perm hapart horder⟩

example : ((Call.peek BinaryOperator.tokens).run .standard []
    ⟨"Greater than\tOR  equal to 1".toList, []⟩).1 = .token .greaterThanOrEqualTo := by
  decide +kernel

end Wordy
