import Mathlib
import Wordy.Proofs.WrittenPrograms

/-! The texts of a list of lexemes are those that the readers cut into them, so that a source is
parsed as a program just when it spells the program. -/

namespace Wordy

open Text Phrasebook

namespace Text

/-- In the letters of the phrases lower case is a choice of the two cases. -/
theorem lowers_iff {v w : List Char} (hw : ∀ x ∈ w, x ∈ phraseLetters) :
    Lowers v w ↔ List.Forall₂ (fun x c => c = x ∨ c = x.toUpper) w v := by
  induction w generalizing v with
  | nil => simp [Lowers]
  | cons x w ih =>
    cases v with
    | nil => simp [Lowers]
    | cons c v =>
      rw [List.forall₂_cons, ← ih fun y hy => hw y (List.mem_cons_of_mem x hy),
        ← lower_eq_singleton_iff (hw x List.mem_cons_self)]
      simp [Lowers]

end Text

namespace Phrase

def Lettered (ws : List (List Char)) : Prop := ∀ w ∈ ws, ∀ x ∈ w, x ∈ phraseLetters

theorem SpelledBy.skipBlank_append {ws : List (List Char)} {s : List Char} (h : SpelledBy ws s)
    (hp : Plain ws) (hl : Lettered ws) (r : List Char) : skipBlank (s ++ r) = s ++ r := by
  have key (w v t : List Char) (hw : w ∈ ws)
      (hv : List.Forall₂ (fun x c => c = x ∨ c = x.toUpper) w v) :
      skipBlank (v ++ t) = v ++ t := by
    obtain ⟨hne, hs⟩ := hp w hw
    refine (((lowers_iff (hl w hw)).mpr hv).solid hs).skipBlank_append ?_ t
    rintro rfl
    exact hne (List.forall₂_nil_right_iff.mp hv)
  cases h with
  | last h => exact key _ _ r (by simp) h
  | more h _ _ _ =>
    rw [List.append_assoc]
    exact key _ _ _ (by simp) h

theorem SpelledBy.afterWords? {ws : List (List Char)} {s r : List Char} (h : SpelledBy ws s)
    (hp : Plain ws) (hl : Lettered ws) (hr : Break r) :
    Phrase.afterWords? ws (s ++ r) = some (skipBlank r) := by
  induction h with
  | @last w v h =>
    have hv := (lowers_iff (hl w (by simp))).mpr h
    have hs := hv.solid (hp w (by simp)).2
    rw [Phrase.afterWords?, hs.word_append hr, if_pos hv, Phrase.afterWords?,
      hs.afterWord_append hr]
  | @more w v gap s ws h hgap hne hs ih =>
    have hv := (lowers_iff (hl w (by simp))).mpr h
    have hsolid := hv.solid (hp w (by simp)).2
    have hb : Break (gap ++ (s ++ r)) := by
      cases gap with
      | nil => exact absurd rfl hne
      | cons c gap => exact .cons (hgap c List.mem_cons_self)
    have hp' : Plain ws := fun u hu => hp u (List.mem_cons_of_mem w hu)
    have hl' : Lettered ws := fun u hu => hl u (List.mem_cons_of_mem w hu)
    rw [List.append_assoc, List.append_assoc, Phrase.afterWords?, hsolid.word_append hb,
      if_pos hv, hsolid.afterWord_append hb, hgap.skipBlank_append,
      hs.skipBlank_append hp' hl', ih hp' hl']

theorem exists_spelledBy {ws : List (List Char)} (hne : ws ≠ []) (hp : Plain ws)
    (hl : Lettered ws) {text rest : List Char} (h : Phrase.afterWords? ws text = some rest) :
    ∃ s r, text = s ++ r ∧ SpelledBy ws s ∧ Break r ∧ skipBlank r = rest := by
  induction ws generalizing text with
  | nil => exact absurd rfl hne
  | cons w ws ih =>
    rw [Phrase.afterWords?] at h
    split at h
    · next hv =>
      have hf := (lowers_iff (hl w List.mem_cons_self)).mp hv
      cases ws with
      | nil =>
        exact ⟨word text, _, (word_append_dropWhile text).symm, .last hf, break_dropWhile text,
          Option.some.inj h⟩
      | cons u us =>
        obtain ⟨s, r, hsr, hs, hr, hrest⟩ := ih (by simp)
          (fun v hm => hp v (List.mem_cons_of_mem w hm))
          (fun v hm => hl v (List.mem_cons_of_mem w hm)) h
        obtain ⟨gap, hgap, ht, hnil⟩ := exists_gap text
        refine ⟨word text ++ (gap ++ s), r, ?_, .more hf hgap ?_ hs, hr, hrest⟩
        · rw [List.append_assoc, List.append_assoc, ← hsr]
          exact ht
        · intro hg
          rw [hnil hg, Phrase.afterWords?] at h
          split at h
          · next hu =>
            exact (hp u (by simp)).1 (by simpa [Lowers, word] using hu.symm)
          · cases h
    · cases h

end Phrase

theorem Token.lettered_words {t : Token} (ht : t ∈ Token.spelled) : Phrase.Lettered t.words :=
  fun _ hw _ hx => mem_phraseLetters ht hw hx

section

variable {book : Phrasebook} {l : Lexeme} {ls : List Lexeme} {text other rest : List Char}

theorem Lexeme.Next.of_skipBlank_eq (hn : l.Next book text rest)
    (h : skipBlank text = skipBlank other) : l.Next book other rest := by
  cases hn with
  | token hn => exact .token (h ▸ hn)
  | word hne hr =>
    rw [h] at hne hr ⊢
    exact .word hne hr
  | quotation hq => exact .quotation (h ▸ hq)

theorem Lexeme.Next.word_append {w : List Char} (hw : Solid w) (hne : w ≠ [])
    (hres : book.isReserved w = false) (hb : Break rest) :
    (Lexeme.word (.ofList w)).Next book (w ++ rest) (skipBlank rest) := by
  have hs := hw.skipBlank_append hne rest
  have hn : (Lexeme.word (.ofList (Text.word (skipBlank (w ++ rest))))).Next book (w ++ rest)
      (afterWord (skipBlank (w ++ rest))) := by
    refine .word ?_ ?_
    · simp [hs, hne]
    · rw [hs, hw.word_append hb]
      exact hres
  rwa [hs, hw.word_append hb, hw.afterWord_append hb] at hn

theorem Reads.of_skipBlank_eq (hr : Reads book ls text rest) (hb : skipBlank rest = [])
    (h : skipBlank text = skipBlank other) :
    ∃ rest', Reads book ls other rest' ∧ skipBlank rest' = [] := by
  cases hr with
  | nil => exact ⟨other, .nil, h ▸ hb⟩
  | cons hn hs => exact ⟨rest, .cons (hn.of_skipBlank_eq h) hs, hb⟩

end

namespace Lexeme

theorem SpelledBy.append_left {ls : List Lexeme} {gap text : List Char} (hgap : Blank gap)
    (h : SpelledBy ls text) : SpelledBy ls (gap ++ text) := by
  cases h with
  | nil h => exact .nil (hgap.append h)
  | token h ht hs hb hls =>
    rw [← List.append_assoc]
    exact .token (hgap.append h) ht hs hb hls
  | word h hne hw hr hb hls =>
    rw [← List.append_assoc]
    exact .word (hgap.append h) hne hw hr hb hls
  | quotation h hq hc hls =>
    rw [← List.append_assoc]
    exact .quotation (hgap.append h) hq hc hls

theorem spelledBy_of_skipBlank {ls : List Lexeme} {text : List Char}
    (h : SpelledBy ls (skipBlank text)) : SpelledBy ls text := by
  have hgap : Blank (text.takeWhile isBlank) := fun c hc => List.mem_takeWhile_imp hc
  have hs := h.append_left hgap
  rwa [skipBlank, List.takeWhile_append_dropWhile] at hs

theorem SpelledBy.reads {ls : List Lexeme} {text : List Char} (h : SpelledBy ls text) :
    ∃ rest, Reads standard ls text rest ∧ skipBlank rest = [] := by
  induction h with
  | nil hgap => exact ⟨_, .nil, skipBlank_eq_nil_iff.mpr hgap⟩
  | @token t ls gap s rest hgap ht h hb _ ih =>
    obtain ⟨end', hr, hend⟩ := ih
    obtain ⟨end', hr, hend⟩ := hr.of_skipBlank_eq hend (skipBlank_skipBlank rest).symm
    refine ⟨end', .cons (.token ?_) hr, hend⟩
    have hp := Token.plain_words ht
    have hl := Token.lettered_words ht
    rw [hgap.skipBlank_append, h.skipBlank_append hp hl, standard_after? ht]
    exact h.afterWords? hp hl hb
  | @word w ls gap rest hgap hne hw hres hb _ ih =>
    obtain ⟨end', hr, hend⟩ := ih
    obtain ⟨end', hr, hend⟩ := hr.of_skipBlank_eq hend (skipBlank_skipBlank rest).symm
    have hn := Lexeme.Next.word_append hw hne hres hb
    exact ⟨end', .cons (hn.of_skipBlank_eq (hgap.skipBlank_append _).symm) hr, hend⟩
  | @quotation quote contents ls gap rest hgap hq hc _ ih =>
    obtain ⟨end', hr, hend⟩ := ih
    obtain ⟨end', hr, hend⟩ := hr.of_skipBlank_eq hend (skipBlank_skipBlank rest).symm
    refine ⟨end', .cons (.quotation ?_) hr, hend⟩
    have hblank := (lower_of_isQuote hq).1
    have hs : skipBlank (quote :: (contents ++ quote :: rest)) =
        quote :: (contents ++ quote :: rest) := by
      simp [skipBlank, hblank]
    rw [hgap.skipBlank_append, hs]
    exact Reader.quoted?_append hq hc

theorem spelledBy_of_reads {ls : List Lexeme} {text rest : List Char}
    (hr : Reads standard ls text rest) (hls : ∀ t, token t ∈ ls → t ∈ Token.spelled)
    (hb : skipBlank rest = []) : SpelledBy ls text := by
  induction hr with
  | nil => exact .nil (skipBlank_eq_nil_iff.mp hb)
  | @cons l ls text mid rest hn _ ih =>
    have hs := ih (fun t ht => hls t (List.mem_cons_of_mem l ht)) hb
    have hnone : Blank [] := by simp [Blank]
    refine spelledBy_of_skipBlank ?_
    cases hn with
    | @token t _ hn =>
      have ht := hls t List.mem_cons_self
      rw [standard_after? ht] at hn
      obtain ⟨s, r, heq, hp, hr, rfl⟩ := Phrase.exists_spelledBy (Token.words_ne_nil t)
        (Token.plain_words ht) (Token.lettered_words ht) hn
      rw [heq]
      exact .token hnone ht hp hr (spelledBy_of_skipBlank hs)
    | word hne hres =>
      obtain ⟨gap, hgap, heq, hnil⟩ := exists_gap (skipBlank text)
      have hbreak : Break (gap ++ afterWord (skipBlank text)) := by
        cases gap with
        | nil => simp [hnil rfl, Break]
        | cons c gap => exact .cons (hgap c List.mem_cons_self)
      have h := SpelledBy.word hnone (word_skipBlank_ne_nil hne) (solid_word _) hres hbreak
        (hs.append_left hgap)
      rwa [List.nil_append, ← heq] at h
    | quotation hq =>
      obtain ⟨quote, hquote, hc, heq⟩ := Reader.quoted?_eq_some hq
      rw [heq]
      exact .quotation hnone hquote hc (spelledBy_of_skipBlank hs)

end Lexeme

/-! No rule of the grammar writes the end of the text, which is not spelled. -/

theorem Expression.Written.endOfInput_not_mem {e : Expression} {ls : List Lexeme}
    (h : e.Written ls) : .token .endOfInput ∉ ls := by
  induction h with
  | atom h => simpa using h.endOfInput_ne
  | negation _ ih => simpa using ih
  | @binary _ _ operator _ _ h _ ih =>
    have ho : .endOfInput ≠ operator.token := by cases operator <;> decide
    simpa [h.endOfInput_ne, ho] using ih

section

variable {α : Type} {shape : α → List Lexeme → Prop} {ls : List Lexeme}

theorem Perhaps.endOfInput_not_mem {a : Option α}
    (hs : ∀ a ls, shape a ls → .token .endOfInput ∉ ls) (h : Perhaps shape a ls) :
    .token .endOfInput ∉ ls := by
  cases h with
  | none => simp
  | some h => exact hs _ _ h

theorem Separated.endOfInput_not_mem {separator : Token} (ht : .endOfInput ≠ separator)
    (hs : ∀ a ls, shape a ls → .token .endOfInput ∉ ls) {as : List α}
    (h : Separated separator shape as ls) : .token .endOfInput ∉ ls := by
  induction h with
  | one h => exact hs _ _ h
  | more h _ ih => simp [hs _ _ h, ht, ih]

theorem Listed.endOfInput_not_mem {sign : Token} (ht : .endOfInput ≠ sign)
    (hs : ∀ a ls, shape a ls → .token .endOfInput ∉ ls) {as : List α}
    (h : Listed sign shape as ls) : .token .endOfInput ∉ ls := by
  cases h with
  | none => simp
  | some h => simp [ht, h.endOfInput_not_mem (by decide) hs]

end

theorem BaseType.endOfInput_ne (base : BaseType) : .endOfInput ≠ base.token := by
  cases base <;> decide

theorem Change.endOfInput_ne (kind : Change) :
    .endOfInput ≠ kind.token ∧ .endOfInput ≠ kind.connector := by
  cases kind <;> decide

theorem Ascription.Written.endOfInput_not_mem {ascription : Ascription} {ls : List Lexeme}
    (h : ascription.Written ls) : .token .endOfInput ∉ ls := by
  cases h <;> simp [BaseType.endOfInput_ne]

theorem Expression.Initial.endOfInput_not_mem {e : Expression} {ls : List Lexeme}
    (h : e.Initial ls) : .token .endOfInput ∉ ls := by
  cases h with
  | equalTo h => simpa using h.1.endOfInput_not_mem
  | initializedTo h => simpa using h.1.endOfInput_not_mem

mutual

theorem Statement.Written.endOfInput_not_mem {s : Statement} {ls : List Lexeme} :
    s.Written ls → .token .endOfInput ∉ ls
  | .declare ha hv _ => by
    simp [ha.endOfInput_not_mem fun _ _ => (·.endOfInput_not_mem),
      hv.endOfInput_not_mem fun _ _ => (·.endOfInput_not_mem)]
  | .change hv => by simp [Change.endOfInput_ne, hv.1.endOfInput_not_mem]
  | .print hv => by simpa using hv.1.endOfInput_not_mem
  | .conditional hb => by simpa using hb.endOfInput_not_mem
  | .conditionalOtherwise hb hs => by simp [hb.endOfInput_not_mem, hs.endOfInput_not_mem]
  | .whileLoop hc hs => by simp [hc.1.endOfInput_not_mem, hs.endOfInput_not_mem]
  | .forLoop hl hu hs => by
    simp [hl.1.endOfInput_not_mem, hu.1.endOfInput_not_mem, hs.endOfInput_not_mem]
  | .call ha hr => by
    have hr := hr.endOfInput_not_mem fun _ _ h => by cases h; simp
    simp [ha.endOfInput_not_mem (by decide) fun _ _ h => h.1.endOfInput_not_mem, hr]
  | .giveBack hv => by simpa using hv.1.endOfInput_not_mem

theorem Statement.WrittenAll.endOfInput_not_mem {ss : List Statement} {ls : List Lexeme} :
    Statement.WrittenAll ss ls → .token .endOfInput ∉ ls
  | .nil => by simp
  | .cons h hs => by simp [h.endOfInput_not_mem, hs.endOfInput_not_mem]

theorem Branch.WrittenAll.endOfInput_not_mem {bs : List Branch} {ls : List Lexeme} :
    Branch.WrittenAll bs ls → .token .endOfInput ∉ ls
  | .one hc hs => by simp [hc.1.endOfInput_not_mem, hs.endOfInput_not_mem]
  | .more hc hs hb => by
    simp [hc.1.endOfInput_not_mem, hs.endOfInput_not_mem, hb.endOfInput_not_mem]

end

theorem Function.Written.endOfInput_not_mem {f : Function} {ls : List Lexeme}
    (h : f.Written ls) : .token .endOfInput ∉ ls := by
  cases h with
  | mk hp hr hs =>
    have hp := hp.endOfInput_not_mem (by decide) fun _ _ h => by
      cases h with
      | mk h => simpa using h.endOfInput_not_mem
    have hr := hr.endOfInput_not_mem fun _ _ h => by cases h; simp [BaseType.endOfInput_ne]
    simp [hp, hr, hs.endOfInput_not_mem]

theorem Item.WrittenAll.endOfInput_not_mem {items : List Item} {ls : List Lexeme}
    (h : Item.WrittenAll items ls) : .token .endOfInput ∉ ls := by
  induction h with
  | nil => simp
  | cons h _ ih =>
    cases h with
    | function h => simp [h.endOfInput_not_mem, ih]
    | statement h => simp [h.endOfInput_not_mem, ih]

/-- A program is parsed from the texts that spell it, and from no other. -/
theorem parse_eq_ok_iff {source : String} {p : Program} :
    parse source = .ok p ↔ p.SpelledBy source.toList := by
  rw [parse_eq_ok_iff_reads]
  constructor
  · rintro ⟨ls, rest, hw, hr, hb⟩
    refine ⟨ls, hw, Lexeme.spelledBy_of_reads hr (fun t ht => Token.mem_spelled.mpr ?_) hb⟩
    rintro rfl
    exact Item.WrittenAll.endOfInput_not_mem hw ht
  · rintro ⟨ls, hw, hs⟩
    obtain ⟨rest, hr, hb⟩ := hs.reads
    exact ⟨ls, rest, hw, hr, hb⟩

end Wordy
