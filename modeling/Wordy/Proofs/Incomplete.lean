import Mathlib
import Wordy.Compiler
import Wordy.Proofs.Expected
import Wordy.Proofs.Failures

/-! Sources that stop too early. A source counts as incomplete by the place of its failure alone.
What stands at the end of the text is always something that is missing there, and the grammar then
has something to go on with. -/

namespace Wordy

open Text Phrasebook

namespace Text

theorem exists_trimEnd_append (before : List Char) {c : Char} (hc : isBlank c = false)
    (rest : List Char) : ∃ more, trimEnd (before ++ c :: rest) = before ++ c :: more := by
  have hskip : skipBlank (c :: before.reverse) = c :: before.reverse := by
    rw [skipBlank, List.dropWhile_cons_of_neg (by simp [hc])]
  obtain ⟨pre, hpre, -⟩ := exists_skipBlank_append rest.reverse hskip
  refine ⟨pre.reverse, ?_⟩
  have hreverse : (before ++ c :: rest).reverse = rest.reverse ++ c :: before.reverse := by simp
  rw [trimEnd, hreverse, hpre]
  simp

theorem byteLength_trimEnd_le (s : List Char) : byteLength (trimEnd s) ≤ byteLength s := by
  have hs : (skipBlank s.reverse).reverse <+: s := by
    rw [← List.reverse_suffix, List.reverse_reverse]
    exact skipBlank_suffix s.reverse
  obtain ⟨tail, htail⟩ := hs
  have hlength := congrArg byteLength htail
  rw [byteLength_append] at hlength
  rw [trimEnd]
  omega

theorem byteLength_trimEnd_append_le_iff (before : List Char) {rest : List Char}
    (hrest : skipBlank rest = rest) :
    byteLength (trimEnd (before ++ rest)) ≤ byteLength before ↔ rest = [] := by
  cases rest with
  | nil => simpa using byteLength_trimEnd_le before
  | cons c rest =>
    have hc : isBlank c = false := by
      have hhead := List.head?_dropWhile_not isBlank (c :: rest)
      rw [show (c :: rest).dropWhile isBlank = c :: rest from hrest] at hhead
      simpa using hhead
    obtain ⟨more, hmore⟩ := exists_trimEnd_append before hc rest
    have hpos := c.utf8Size_pos
    rw [hmore, byteLength_append, byteLength_cons]
    constructor
    · intro hle
      omega
    · nofun

end Text

/-- A failure is at the end of the text where its source counts as incomplete, and nowhere else. -/
theorem Failure.Placed.isIncomplete_iff {book : Phrasebook} {source : String} {e : Failure}
    (h : e.Placed book source.toList) :
    (e.locate source.toList).isIncomplete source = true ↔ e.rest = [] := by
  obtain ⟨before, hbefore⟩ := h.suffix
  have hoffset : byteLength source.toList - byteLength e.rest = byteLength before := by
    rw [← hbefore, byteLength_append, Nat.add_sub_cancel]
  have hiff := byteLength_trimEnd_append_le_iff before h.skipBlank
  rw [hbefore] at hiff
  rw [← hiff, Diagnostic.isIncomplete, decide_eq_true_eq]
  change _ ≤ byteLength source.toList - byteLength e.rest ↔ _
  rw [hoffset]

/-- What the parser misses at the end of the text can follow what it has read. -/
theorem Program.read_endOfText {text rest : List Char} {s : Cursor}
    (h : Program.read standard (.start text) = .error ⟨.endOfText, rest⟩ s) :
    ∃ ls mid, Reads standard ls text mid ∧ skipBlank mid = rest ∧ Open Program.WrittenToEnd ls := by
  rcases Reader.bind_eq_error.mp h with h | ⟨_, _, hc, h⟩
  · cases h
  cases hc
  rcases Reader.bind_eq_error.mp h with h | ⟨_, _, -, h⟩
  · obtain ⟨ls, mid, hr, hrest, hopen⟩ := (Program.offers_readItems _).endOfText h
    exact ⟨ls, mid, hr, hrest.symm, hopen⟩
  · cases h

theorem Offer.isOpen {α : Type} {goal : α → List Lexeme → Prop} {ls : List Lexeme} {u : Token}
    (h : Offer goal ls u) : Open goal ls := by
  rcases h with ⟨a, more, hmore, ha⟩ | ⟨h, -⟩
  · exact ⟨a, .token u :: more, filler_token.mpr hmore, ha⟩
  · exact h

theorem Program.exists_open {text : List Char} {e : Failure} {s : Cursor}
    (h : Program.read standard (.start text) = .error e s) (hp : e.Placed standard text)
    (hrest : e.rest = []) :
    ∃ ls mid, Reads standard ls text mid ∧ skipBlank mid = [] ∧ Open Program.WrittenToEnd ls := by
  obtain ⟨fault, rest⟩ := e
  obtain rfl : rest = [] := hrest
  rcases hp.fault_of_nil standard_hasNoEmptyPhrase rfl with ⟨tokens, hne, hfault⟩ | hfault
  · obtain rfl : fault = .unexpected (standard.forms tokens) := hfault
    obtain ⟨t, ts, rfl⟩ := List.exists_cons_of_ne_nil hne
    have hform : standard.form t ∈ standard.forms (t :: ts) :=
      mem_forms.mpr ⟨t, List.mem_cons_self, rfl⟩
    obtain ⟨ls, mid, hr, hmid, hoffer⟩ := Program.read_unexpected h
    obtain ⟨u, -, hu⟩ := hoffer _ hform
    exact ⟨ls, mid, hr, hmid, hu.isOpen⟩
  · obtain rfl : fault = .endOfText := hfault
    exact Program.read_endOfText h

/-- A program that is open needs filler and the end of the text, or has come to the end already. -/
theorem Program.exists_written_of_open {ls : List Lexeme} (h : Open Program.WrittenToEnd ls) :
    ∃ p ms more, (ls = ms ∨ ls = ms ++ [.token .endOfInput]) ∧ Filler more ∧
      .token .endOfInput ∉ more ∧ Program.Written p (ms ++ more) := by
  obtain ⟨items, more, hmore, ms, heq, hw⟩ := h
  rcases List.eq_nil_or_concat' more with rfl | ⟨init, l, rfl⟩
  · rw [List.append_nil] at heq
    refine ⟨⟨items⟩, ms, [], .inr heq, filler_nil, by simp, ?_⟩
    rwa [List.append_nil]
  · rw [← List.append_assoc] at heq
    obtain ⟨rfl, -⟩ := List.append_inj' heq rfl
    refine ⟨⟨items⟩, ls, init, .inl rfl, (filler_append.mp hmore).1, fun hm => ?_, hw⟩
    exact Item.WrittenAll.endOfInput_not_mem hw (List.mem_append_right ls hm)

theorem Token.newline_not_mem (t : Token) : '\n' ∉ t.phrase.toList := by
  cases t <;> decide

theorem Filler.newline_not_mem {ls : List Lexeme} (h : Filler ls) :
    '\n' ∉ (Lexeme.spaced ls).toList := by
  -- Filler is made of phrases and of one name, and needs no quoted text.
  have htext : ∀ l ∈ ls, '\n' ∉ l.text.toList := by
    intro l hl
    have hfiller := h l hl
    cases l with
    | token t => exact t.newline_not_mem
    | word w =>
      obtain rfl : w = "x" := by simpa [Lexeme.isFiller] using hfiller
      decide
    | quotation contents => simp [Lexeme.isFiller] at hfiller
  induction ls with
  | nil => simp [Lexeme.spaced]
  | cons l ls ih =>
    have hl := htext l List.mem_cons_self
    have hls := ih (fun k hk => h k (List.mem_cons_of_mem l hk))
      fun k hk => htext k (List.mem_cons_of_mem l hk)
    cases ls with
    | nil => simpa [Lexeme.spaced] using hl
    | cons k ls =>
      have hcons : (Lexeme.spaced (l :: k :: ls)).toList =
          l.text.toList ++ ' ' :: (Lexeme.spaced (k :: ls)).toList := by
        simp [Lexeme.spaced, String.intercalate_cons_cons]
      rw [hcons]
      simp [hl, hls]

theorem exists_line_of_rest_eq_nil {source : String} {e : Failure} {s : Cursor}
    (h : Program.read standard (.start source.toList) = .error e s)
    (hp : e.Placed standard source.toList) (hrest : e.rest = []) :
    ∃ line p, '\n' ∉ line.toList ∧ parse (source ++ "\n" ++ line) = .ok p := by
  obtain ⟨ls, mid, hr, hmid, hopen⟩ := Program.exists_open h hp hrest
  obtain ⟨p, ms, more, hls, hfiller, hend, hw⟩ := Program.exists_written_of_open hopen
  -- The end of the input may have been read already; the line is written before it.
  obtain ⟨mid', hr', hmid'⟩ :
      ∃ mid', Reads standard ms source.toList mid' ∧ skipBlank mid' = [] := by
    rcases hls with rfl | rfl
    · exact ⟨mid, hr, hmid⟩
    · obtain ⟨mid', hr', hlast⟩ := hr.of_append
      cases hlast with
      | cons hn _ => exact ⟨mid', hr', (after?_endOfInput.mp (Lexeme.Next.token_iff.mp hn)).1⟩
  have hnone : Lexeme.SpelledBy [] [] := .nil (by simp [Blank])
  have hspelled := Lexeme.spelledBy_spaced hfiller.fit hend (show Break [] by simp [Break]) hnone
  rw [List.append_nil, List.append_nil] at hspelled
  have hnewline : Blank ['\n'] := by simp [Blank, isBlank]
  rw [← List.append_nil source.toList] at hr'
  have hparse := hr'.parse_exchange hmid' (.cons (by decide)) (hspelled.append_left hnewline) hw
  have htext : source ++ "\n" ++ Lexeme.spaced more =
      .ofList (source.toList ++ (['\n'] ++ (Lexeme.spaced more).toList)) := by
    rw [← String.toList_inj]
    simp
  exact ⟨Lexeme.spaced more, p, hfiller.newline_not_mem, htext ▸ hparse⟩

/-- A source that counts as incomplete goes on, in one more line, to a program. -/
theorem exists_parse_of_isIncomplete {source : String} {d : Diagnostic}
    (h : parse source = .error d) (hi : d.isIncomplete source = true) :
    ∃ line p, '\n' ∉ line.toList ∧ parse (source ++ "\n" ++ line) = .ok p := by
  obtain ⟨e, s, hread, hp, rfl⟩ := placed_of_parseWith standard_hasNoEmptyPhrase h
  exact exists_line_of_rest_eq_nil hread hp (hp.isIncomplete_iff.mp hi)

theorem exists_parse_of_isIncomplete_otherwise :
    parse "if x do\notherwise" = .error ⟨.unexpected ["do"], ⟨2, 9, 17⟩⟩ ∧
      (Diagnostic.isIncomplete ⟨.unexpected ["do"], ⟨2, 9, 17⟩⟩ "if x do\notherwise") = true ∧
      ∃ line p, '\n' ∉ line.toList ∧ parse ("if x do\notherwise" ++ "\n" ++ line) = .ok p := by
  have h : parse "if x do\notherwise" = .error ⟨.unexpected ["do"], ⟨2, 9, 17⟩⟩ := by
    decide +kernel
  have hi : Diagnostic.isIncomplete ⟨.unexpected ["do"], ⟨2, 9, 17⟩⟩ "if x do\notherwise" = true := by
    decide +kernel
  exact ⟨h, hi, exists_parse_of_isIncomplete h hi⟩

end Wordy
