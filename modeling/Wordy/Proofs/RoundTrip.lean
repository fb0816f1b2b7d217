import Mathlib
import Wordy.Source
import Wordy.Proofs.Spellings
import Wordy.Proofs.WellFormed

/-! A well-formed program is parsed from its source. The source is cut into lines, and the lines
into lexemes; a lexeme that is fit to be read is read from its text. -/

namespace Wordy

open Text Phrasebook

theorem Phrase.spelledBy_intercalate {ws : List (List Char)} (hne : ws ≠ []) :
    SpelledBy ws ([' '].intercalate ws) := by
  have hself (w : List Char) : List.Forall₂ (fun x c => c = x ∨ c = x.toUpper) w w :=
    List.forall₂_same.mpr fun _ _ => .inl rfl
  induction ws with
  | nil => exact absurd rfl hne
  | cons w ws ih =>
    cases ws with
    | nil => simpa [List.intercalate] using SpelledBy.last (hself w)
    | cons u us =>
      have hi : [' '].intercalate (w :: u :: us) =
          w ++ ([' '] ++ [' '].intercalate (u :: us)) := by
        simp [List.intercalate]
      rw [hi]
      exact .more (hself w) (by simp [Blank, isBlank]) (by simp) (ih (by simp))

theorem quoteFor_spec {contents : List Char}
    (h : ∃ quote, Reader.isQuote quote = true ∧ quote ∉ contents) :
    Reader.isQuote (quoteFor contents) = true ∧ quoteFor contents ∉ contents := by
  obtain ⟨quote, hq, hc⟩ := h
  have hm : quote ∈ ['\x22', '\x27', '\x60'] := by
    rcases isQuote_iff.mp hq with rfl | rfl | rfl <;> simp
  unfold quoteFor
  cases hf : ['\x22', '\x27', '\x60'].find? (!contents.contains ·) with
  | none =>
    have := List.find?_eq_none.mp hf quote hm
    simp [hc] at this
  | some q =>
    have hq := List.mem_of_find?_eq_some hf
    have hn := List.find?_some hf
    simp only [List.mem_cons, List.not_mem_nil, or_false] at hq
    refine ⟨isQuote_iff.mpr (by tauto), by simpa using hn⟩

namespace Lexeme

variable {l : Lexeme} {ls ms : List Lexeme} {rest : List Char}

theorem spelledBy_text (h : l.Fit .standard) (he : .token .endOfInput ≠ l) (hb : Break rest)
    (hs : SpelledBy ls rest) : SpelledBy (l :: ls) (l.text.toList ++ rest) := by
  have hnone : Blank [] := by simp [Blank]
  cases l with
  | token t =>
    have ht : t ∈ Token.spelled := Token.mem_spelled.mpr fun e => he (by rw [e])
    have hp := Phrase.spelledBy_intercalate (Token.words_ne_nil t)
    rw [Token.intercalate_words] at hp
    exact .token hnone ht hp hb hs
  | word w =>
    have h := SpelledBy.word hnone h.ne_nil h.solid h.not_reserved hb hs
    rwa [String.ofList_toList] at h
  | quotation contents =>
    obtain ⟨hq, hc⟩ := quoteFor_spec h
    have h := SpelledBy.quotation hnone hq hc hs
    rw [String.ofList_toList] at h
    simpa [text] using h

theorem spelledBy_spaced (hl : ∀ l ∈ ls, l.Fit .standard) (he : .token .endOfInput ∉ ls)
    (hb : Break rest) (hs : SpelledBy ms rest) :
    SpelledBy (ls ++ ms) ((spaced ls).toList ++ rest) := by
  induction ls with
  | nil => exact hs
  | cons l ls ih =>
    obtain ⟨hfit, hls⟩ := List.forall_mem_cons.mp hl
    rw [List.mem_cons, not_or] at he
    have ih := ih hls he.2
    cases ls with
    | nil => simpa [spaced] using spelledBy_text hfit he.1 hb hs
    | cons k ls =>
      have hgap : Blank [' '] := by simp [Blank, isBlank]
      have h := spelledBy_text hfit he.1 (.cons (by decide)) (ih.append_left hgap)
      simpa [spaced, String.intercalate_cons_cons] using h

end Lexeme

/-- The lines are written from lists of lexemes that make up the list. -/
def Holds (lines : List Line) (ls : List Lexeme) : Prop :=
  ∃ parts : List (List Lexeme), lines.map Line.text = parts.map Lexeme.spaced ∧ parts.flatten = ls

namespace Holds

variable {lines more : List Line} {ls ms : List Lexeme}

theorem blank_indentation (depth : Nat) :
    Blank (String.join (List.replicate depth "    ")).toList := by
  intro c hc
  rw [String.toList_join, List.mem_flatMap] at hc
  obtain ⟨unit, hu, hc⟩ := hc
  rw [List.eq_of_mem_replicate hu] at hc
  obtain rfl : c = ' ' := by simpa using hc
  decide

theorem nil : Holds [] [] := ⟨[], rfl, rfl⟩

theorem single : Holds [sourceLine ls] ls := ⟨[ls], rfl, by simp⟩

theorem append (h : Holds lines ls) (hm : Holds more ms) : Holds (lines ++ more) (ls ++ ms) := by
  obtain ⟨ps, hp, rfl⟩ := h
  obtain ⟨qs, hq, rfl⟩ := hm
  exact ⟨ps ++ qs, by simp [hp, hq], by simp⟩

theorem cons (h : Holds lines ms) : Holds (sourceLine ls :: lines) (ls ++ ms) := single.append h

theorem congr (h : Holds lines ls) (he : ls = ms) : Holds lines ms := he ▸ h

theorem block (h : Holds lines ls) : Holds (block lines) ls := by
  obtain ⟨ps, hp, rfl⟩ := h
  refine ⟨ps, ?_, rfl⟩
  rw [← hp, Wordy.block, List.map_map]
  rfl

theorem spelledBy (h : Holds lines ls) (hl : ∀ l ∈ ls, l.Fit .standard)
    (he : .token .endOfInput ∉ ls) : Lexeme.SpelledBy ls (layout "    " lines).toList := by
  obtain ⟨ps, hp, rfl⟩ := h
  induction lines generalizing ps with
  | nil =>
    obtain rfl : ps = [] := by simpa using hp.symm
    exact .nil (by simp [layout, Blank])
  | cons line lines ih =>
    cases ps with
    | nil => simp at hp
    | cons p ps =>
      obtain ⟨hline, hlines⟩ := List.cons.inj hp
      rw [List.flatten_cons] at hl he ⊢
      rw [List.mem_append, not_or] at he
      have hrest := ih ps hlines (fun l hm => hl l (List.mem_append_right p hm)) he.2
      -- The line break is the gap before the next line, and the indentation that before this one.
      have hnewline : Blank ['\n'] := by simp [Blank, isBlank]
      have h := Lexeme.spelledBy_spaced (fun l hm => hl l (List.mem_append_left _ hm)) he.1
        (.cons (by decide)) (hrest.append_left hnewline)
      rw [toList_layout_cons, hline]
      exact h.append_left (blank_indentation line.depth)

end Holds

theorem Text.lower_of_isDigit {c : Char} (h : c.isDigit = true) :
    isBlank c = false ∧ lower c = [c] := by
  have hc : c.toNat ∈ List.range' 48 10 := by
    simp only [Char.isDigit, Bool.and_eq_true, decide_eq_true_eq, UInt32.le_iff_toNat_le] at h
    have h0 : '0'.val.toNat = 48 := rfl
    have h9 : '9'.val.toNat = 57 := rfl
    have hn : c.toNat = c.val.toNat := rfl
    rw [List.mem_range'_1]
    omega
  have hall : ((List.range' 48 10).all fun n =>
      !isBlank (Char.ofNat n) && lower (Char.ofNat n) == [Char.ofNat n]) = true := by
    decide
  simpa using List.all_eq_true.mp hall c.toNat hc

theorem Text.isBlank_of_isAlphanum {c : Char} (h : c.isAlphanum = true) : isBlank c = false := by
  by_contra hb
  have hc := toNat_mem_blankCodes (Bool.not_eq_false _ ▸ hb)
  have hall : (blankCodes.all fun n => !(Char.ofNat n).isAlphanum) = true := by decide
  simpa [h] using List.all_eq_true.mp hall c.toNat hc

namespace Atom

theorem IsNumeral.exists_digit {w : List Char} (h : IsNumeral w) :
    ∃ c ∈ w, c.isDigit = true := by
  obtain ⟨sign, whole, fraction, rfl, -, hw, hf⟩ := h
  rcases hf with ⟨-, hne⟩ | ⟨digits, rfl, hne, hd⟩
  · obtain ⟨c, hc⟩ := List.exists_mem_of_ne_nil whole hne
    exact ⟨c, by simp [hc], hw c hc⟩
  · obtain ⟨c, hc⟩ := List.exists_mem_of_ne_nil digits hne
    exact ⟨c, by simp [hc], hd c hc⟩

theorem IsNumeral.solid {w : List Char} (h : IsNumeral w) : Solid w := by
  intro c hc
  rcases h.mem c hc with rfl | rfl | hd
  · decide
  · decide
  · exact (lower_of_isDigit hd).1

/-- A numeral has a digit, and no phrase has one. -/
theorem IsNumeral.not_reserved {w : List Char} (h : IsNumeral w) :
    Phrasebook.standard.isReserved w = false := by
  have hlow : Lowers w w := by
    refine List.map_congr_left fun c hc => ?_
    rcases h.mem c hc with rfl | rfl | hd
    · decide
    · decide
    · exact (lower_of_isDigit hd).2
  -- The sigma is the one letter whose lower case depends on what stands around it.
  have hsigma : 'σ' ∉ w := by
    intro hs
    rcases h.mem _ hs with hc | hc | hc <;> exact absurd hc (by decide)
  obtain ⟨c, hc, hd⟩ := h.exists_digit
  refine List.any_eq_false.mpr fun spelling hm => ?_
  obtain ⟨t, ht, rfl⟩ := List.mem_map.mp hm
  rw [lowercase_of_lowers hlow hsigma, beq_iff_eq]
  intro he
  have hall : (Token.spelled.all fun t => t.phrase.toList.all (!·.isDigit)) = true := by
    decide
  have hn := List.all_eq_true.mp (List.all_eq_true.mp hall t ht) c (he ▸ hc)
  simp [hd] at hn

theorem IsVariable.solid {w : List Char} (h : IsVariable w) : Solid w := by
  obtain ⟨c, more, rfl, hc, hm⟩ := h
  intro d hd
  rcases List.mem_cons.mp hd with rfl | hd
  · exact isBlank_of_isAlphanum (by simp [Char.isAlphanum, hc])
  · rcases hm d hd with h | rfl | rfl
    · exact isBlank_of_isAlphanum h
    · decide
    · decide

theorem WellFormed.written {a : Atom} (h : a.WellFormed .standard) :
    a.Written a.lexeme ∧ a.lexeme.Fit .standard := by
  cases a with
  | number digits =>
    refine ⟨.number h.1, ?_, h.1.solid, h.2⟩
    obtain ⟨c, hc, -⟩ := h.1.exists_digit
    exact List.ne_nil_of_mem hc
  | text contents => exact ⟨.text, h⟩
  | truth value => exact ⟨.truth, trivial⟩
  | reference name =>
    refine ⟨.reference h.1, ?_, h.1.solid, h.2⟩
    obtain ⟨c, more, he, -⟩ := h.1
    simp [he]

end Atom

namespace Expression

theorem AtomsWellFormed.written {e : Expression} (h : e.AtomsWellFormed .standard) :
    e.Written e.lexemes ∧ ∀ l ∈ e.lexemes, l.Fit .standard := by
  induction e with
  | atom a =>
    obtain ⟨hw, hf⟩ := Atom.WellFormed.written h
    exact ⟨.atom hw, by simpa [lexemes] using hf⟩
  | negation e ih =>
    obtain ⟨hw, hf⟩ := ih h
    exact ⟨.negation hw, by simpa [lexemes] using hf⟩
  | binary a o e ih =>
    obtain ⟨ha, hfa⟩ := Atom.WellFormed.written h.1
    obtain ⟨hw, hf⟩ := ih h.2
    exact ⟨.binary ha hw, by simpa [lexemes, hfa] using hf⟩

theorem WellFormed.stated {e : Expression} (h : e.WellFormed .standard) :
    e.Stated e.lexemes ∧ ∀ l ∈ e.lexemes, l.Fit .standard :=
  ⟨⟨h.2.written.1, h.1⟩, h.2.written.2⟩

end Expression

theorem Ascription.written_lexemes (a : Ascription) : a.Written a.lexemes := by
  obtain ⟨isMutable, base⟩ := a
  cases isMutable with
  | true => exact .mutable
  | false => exact .fixed

theorem Ascription.fit_lexemes (a : Ascription) : ∀ l ∈ a.lexemes, l.Fit .standard := by
  obtain ⟨isMutable, base⟩ := a
  cases isMutable <;> simp [lexemes]

section

variable {α : Type} {shape : α → List Lexeme → Prop} {f : α → List Lexeme}

theorem perhaps_optionalLexemes {a : Option α} (h : ∀ b ∈ a, shape b (f b)) :
    Perhaps shape a (optionalLexemes f a) := by
  cases a with
  | none => exact .none
  | some b => exact .some (h b rfl)

theorem fit_optionalLexemes {a : Option α} (h : ∀ b ∈ a, ∀ l ∈ f b, l.Fit .standard) :
    ∀ l ∈ optionalLexemes f a, l.Fit .standard := by
  cases a with
  | none => simp [optionalLexemes]
  | some b => exact h b rfl

theorem separated_commaSeparated {as : List α} (hne : as ≠ []) (h : ∀ a ∈ as, shape a (f a)) :
    Separated .comma shape as (Lexeme.commaSeparated (as.map f)) := by
  induction as with
  | nil => exact absurd rfl hne
  | cons a as ih =>
    obtain ⟨ha, has⟩ := List.forall_mem_cons.mp h
    cases as with
    | nil => exact .one ha
    | cons b bs => exact .more ha (ih (by simp) has)

/-- The lexemes of a list with a sign, of which an empty list needs none. -/
theorem listed_commaSeparated (sign : Token) {as : List α} (h : ∀ a ∈ as, shape a (f a)) :
    Listed sign shape as
      (if as.isEmpty then [] else .token sign :: Lexeme.commaSeparated (as.map f)) := by
  cases as with
  | nil => exact .none
  | cons a as => exact .some (separated_commaSeparated (by simp) h)

theorem fit_commaSeparated {as : List α} (h : ∀ a ∈ as, ∀ l ∈ f a, l.Fit .standard) :
    ∀ l ∈ Lexeme.commaSeparated (as.map f), l.Fit .standard := by
  induction as with
  | nil => simp [Lexeme.commaSeparated]
  | cons a as ih =>
    obtain ⟨ha, has⟩ := List.forall_mem_cons.mp h
    cases as with
    | nil => exact ha
    | cons b bs =>
      have ih := ih has
      simp only [List.map_cons] at ih ⊢
      rw [Lexeme.commaSeparated, List.forall_mem_append, List.forall_mem_cons]
      · exact ⟨ha, trivial, ih⟩
      · simp

theorem fit_listed (sign : Token) (as : List α) (h : ∀ a ∈ as, ∀ l ∈ f a, l.Fit .standard) :
    ∀ l ∈ (if as.isEmpty then [] else .token sign :: Lexeme.commaSeparated (as.map f)),
      l.Fit .standard := by
  split
  · simp
  · exact List.forall_mem_cons.mpr ⟨trivial, fit_commaSeparated h⟩

end

mutual

theorem Statement.WellFormed.holds_source :
    (s : Statement) → s.WellFormed .standard →
      ∃ ls, s.Written ls ∧ Holds s.source ls ∧ ∀ l ∈ ls, l.Fit .standard
  | .declare name ascription value, ⟨hn, hsome, hv⟩ => by
    have ha := perhaps_optionalLexemes (a := ascription) fun a _ => a.written_lexemes
    have hi : Perhaps Expression.Initial value
        (optionalLexemes (.token .initializedTo :: Expression.lexemes ·) value) :=
      perhaps_optionalLexemes fun e he => .initializedTo (hv e he).stated.1
    refine ⟨_, .declare ha hi hsome, .single, ?_⟩
    have hfa := fit_optionalLexemes (a := ascription) fun a _ => a.fit_lexemes
    have hfv := fit_optionalLexemes (f := (.token .initializedTo :: Expression.lexemes ·))
      fun e he => List.forall_mem_cons.mpr ⟨Lexeme.fit_token, (hv e he).stated.2⟩
    simpa [or_imp, forall_and, hn] using ⟨hfa, hfv⟩
  | .change kind target value, ⟨hn, hv⟩ =>
    ⟨_, .change hv.stated.1, .single, by simpa [hn] using hv.stated.2⟩
  | .print value, hv => ⟨_, .print hv.stated.1, .single, by simpa using hv.stated.2⟩
  | .conditional branches none, ⟨hne, hb⟩ => by
    obtain ⟨bs, hw, hh, hf⟩ := Branch.WellFormedAll.holds_source branches hne hb .ifWord
    refine ⟨_, .conditional hw, ?_, ?_⟩
    · exact hh.append .single
    · simpa [or_imp, forall_and] using hf
  | .conditional branches (some body), ⟨hne, hb, hs⟩ => by
    obtain ⟨bs, hw, hh, hf⟩ := Branch.WellFormedAll.holds_source branches hne hb .ifWord
    obtain ⟨ss, hws, hhs, hfs⟩ := Statement.WellFormedAll.holds_source body hs
    refine ⟨_, .conditionalOtherwise hw hws, ?_, ?_⟩
    · exact ((hh.append hhs.block.cons).append .single).congr (by simp)
    · simpa [or_imp, forall_and] using ⟨hf, hfs⟩
  | .whileLoop condition body, ⟨hc, hs⟩ => by
    obtain ⟨ss, hws, hhs, hfs⟩ := Statement.WellFormedAll.holds_source body hs
    refine ⟨_, .whileLoop hc.stated.1 hws, ?_, ?_⟩
    · exact (hhs.block.cons.append .single).congr (by simp)
    · simpa [or_imp, forall_and] using ⟨hc.stated.2, hfs⟩
  | .forLoop iterator lower upper body, ⟨hn, hl, hu, hs⟩ => by
    obtain ⟨ss, hws, hhs, hfs⟩ := Statement.WellFormedAll.holds_source body hs
    refine ⟨_, .forLoop hl.stated.1 hu.stated.1 hws, ?_, ?_⟩
    · exact (hhs.block.cons.append .single).congr (by simp)
    · simpa [or_imp, forall_and, hn] using ⟨hl.stated.2, hu.stated.2, hfs⟩
  | .call function arguments result, ⟨hn, ha, hr⟩ => by
    have has := listed_commaSeparated .withArg fun e he => (ha e he).stated.1
    have hrs : Perhaps ResultTarget result
        (optionalLexemes ([.token .thenPutResultInto, .word ·]) result) :=
      perhaps_optionalLexemes fun _ _ => .mk
    refine ⟨_, .call has hrs, .single, ?_⟩
    have hfa := fit_listed .withArg arguments fun e he => (ha e he).stated.2
    have hfr := fit_optionalLexemes (f := ([.token .thenPutResultInto, .word ·])) (a := result)
      fun n hm => by simpa using hr n hm
    rw [List.forall_mem_cons, List.forall_mem_cons, List.forall_mem_append]
    exact ⟨trivial, hn, hfa, hfr⟩
  | .giveBack value, hv => ⟨_, .giveBack hv.stated.1, .single, by simpa using hv.stated.2⟩

theorem Statement.WellFormedAll.holds_source :
    (ss : List Statement) → Statement.WellFormedAll .standard ss →
      ∃ ls, Statement.WrittenAll ss ls ∧ Holds (Statement.sourceAll ss) ls ∧
        ∀ l ∈ ls, l.Fit .standard
  | [], _ => ⟨_, .nil, .nil, by simp⟩
  | s :: ss, ⟨h, hs⟩ => by
    obtain ⟨ls, hw, hh, hf⟩ := Statement.WellFormed.holds_source s h
    obtain ⟨ms, hws, hhs, hfs⟩ := Statement.WellFormedAll.holds_source ss hs
    exact ⟨_, .cons hw hws, hh.append hhs, List.forall_mem_append.mpr ⟨hf, hfs⟩⟩

theorem Branch.WellFormedAll.holds_source :
    (bs : List Branch) → bs ≠ [] → Branch.WellFormedAll .standard bs → (opening : Token) →
      ∃ ls, Branch.WrittenAll bs ls ∧ Holds (Branch.source opening bs) (.token opening :: ls) ∧
        ∀ l ∈ ls, l.Fit .standard
  | [], hne, _, _ => absurd rfl hne
  | [⟨condition, body⟩], _, ⟨hc, hs, _⟩, opening => by
    obtain ⟨ss, hws, hhs, hfs⟩ := Statement.WellFormedAll.holds_source body hs
    refine ⟨_, .one hc.stated.1 hws, ?_, ?_⟩
    · exact (hhs.block.cons.append .nil).congr (by simp)
    · simpa [or_imp, forall_and] using ⟨hc.stated.2, hfs⟩
  | ⟨condition, body⟩ :: b :: bs, _, ⟨hc, hs, hb⟩, opening => by
    obtain ⟨ss, hws, hhs, hfs⟩ := Statement.WellFormedAll.holds_source body hs
    obtain ⟨ls, hw, hh, hf⟩ := Branch.WellFormedAll.holds_source (b :: bs) (by simp) hb .butIf
    refine ⟨_, .more hc.stated.1 hws hw, ?_, ?_⟩
    · exact (hhs.block.cons.append hh).congr (by simp)
    · simpa [or_imp, forall_and] using ⟨hc.stated.2, hfs, hf⟩

end

theorem Function.WellFormed.holds_source {f : Function} (h : f.WellFormed .standard) :
    ∃ ls, f.Written ls ∧ Holds f.source ls ∧ ∀ l ∈ ls, l.Fit .standard := by
  obtain ⟨name, parameters, returns, body⟩ := f
  obtain ⟨ss, hws, hhs, hfs⟩ := Statement.WellFormedAll.holds_source body h.body
  have hp : Listed .withParam Parameter.Written parameters _ :=
    listed_commaSeparated .withParam (f := Parameter.lexemes) fun p _ =>
      .mk p.ascription.written_lexemes
  have hr : Perhaps BaseType.Returned returns
      (optionalLexemes (fun base => [.token .thatReturn, .token base.token]) returns) :=
    perhaps_optionalLexemes fun _ _ => .mk
  have hfp := fit_listed .withParam parameters (f := Parameter.lexemes) fun p hm => by
    simpa [Parameter.lexemes, h.parameters p hm] using p.ascription.fit_lexemes
  have hfr := fit_optionalLexemes (a := returns)
    (f := fun base => [.token .thatReturn, .token base.token]) (by simp)
  refine ⟨_, .mk hp hr hws, (hhs.block.cons.append .single).congr (by simp), ?_⟩
  rw [List.forall_mem_cons, List.forall_mem_cons, List.forall_mem_append, List.forall_mem_append,
    List.forall_mem_cons, List.forall_mem_append]
  exact ⟨trivial, h.name, hfp, hfr, trivial, hfs, by simp⟩

theorem Program.WellFormed.holds_source {items : List Item}
    (h : ∀ item ∈ items, item.WellFormed .standard) :
    ∃ ls, Item.WrittenAll items ls ∧ Holds (items.flatMap Item.source) ls ∧
      ∀ l ∈ ls, l.Fit .standard := by
  induction items with
  | nil => exact ⟨[], .nil, .nil, by simp⟩
  | cons item items ih =>
    obtain ⟨hi, his⟩ := List.forall_mem_cons.mp h
    obtain ⟨ms, hws, hhs, hfs⟩ := ih his
    cases item with
    | function f =>
      obtain ⟨ls, hw, hh, hf⟩ := Function.WellFormed.holds_source hi
      exact ⟨_, .cons (.function hw) hws, hh.append hhs, List.forall_mem_append.mpr ⟨hf, hfs⟩⟩
    | statement s =>
      obtain ⟨ls, hw, hh, hf⟩ := Statement.WellFormed.holds_source s hi
      exact ⟨_, .cons (.statement hw) hws, hh.append hhs, List.forall_mem_append.mpr ⟨hf, hfs⟩⟩

/-- A well-formed program is parsed from its own source. Of its numbers this asks for nothing but
the form of a numeral. -/
theorem parse_source {p : Program} (h : p.WellFormed .standard) : parse p.source = .ok p := by
  obtain ⟨ls, hw, hh, hf⟩ := Program.WellFormed.holds_source h
  have hs := hh.spelledBy hf (Item.WrittenAll.endOfInput_not_mem hw)
  obtain ⟨rest, hr, hb⟩ := hs.reads
  exact parse_of_written hw hr hb

/-- Names that begin phrases, and a text that holds a quote and a line break. -/
def quotesProgram : Program :=
  ⟨[.statement (.conditional
    [⟨.binary (.reference "equal") .less (.atom (.number "-.5")),
      [.change .assign "with" (.negation (.atom (.text "\"\n'")))]⟩] (some []))]⟩

theorem parse_source_quotesProgram :
    quotesProgram.WellFormed .standard ∧ parse quotesProgram.source = .ok quotesProgram := by
  have h : quotesProgram.WellFormed .standard := by
    have hequal : Atom.IsVariable "equal".toList := (Atom.isReference_iff _).mp (by decide)
    have hnumber : Atom.IsNumeral "-.5".toList := (Atom.isNumber_iff _).mp (by decide)
    have hwith : standard.IsName "with" := ⟨by decide, by simp [Solid, isBlank], by decide⟩
    refine List.forall_mem_singleton.mpr ⟨by simp, ⟨⟨?_, ?_⟩, ⟨⟨hwith, ?_, ?_⟩, trivial⟩, trivial⟩,
      trivial⟩
    · decide
    · exact ⟨⟨hequal, by decide⟩, hnumber, by decide⟩
    · decide
    · exact ⟨'`', by decide, by decide⟩
  exact ⟨h, parse_source h⟩

end Wordy
