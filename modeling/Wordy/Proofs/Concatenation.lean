import Mathlib
import Wordy.Compiler
import Wordy.Proofs.Expected

/-! Sources one after another. What ends a source ends it as well where more follows: no phrase and
no name reaches over a blank that the next source begins behind, and an item opens with a phrase
that goes on with no other one. So the lexemes of the two sources make up those of the joined text,
and both targets write item by item. -/

namespace Wordy

open Text Phrasebook

theorem Reads.join {s k mid rest : List Char} {ls ms : List Lexeme} (hl : Reads standard ls s mid)
    (hmid : skipBlank mid = []) (he : .token .endOfInput ∉ ls) (hk : Break k)
    (hm : Reads standard ms k rest) (hrest : skipBlank rest = []) :
    ∃ last, Reads standard (ls ++ ms) (s ++ k) last ∧ skipBlank last = [] := by
  obtain ⟨pre, hpre, hshift⟩ := exists_skipBlank_append s (show skipBlank [] = [] from rfl)
  rw [List.append_nil] at hpre
  obtain ⟨mid', hl', hmid'⟩ := hl.shift he hk hpre (hshift k) hmid
  obtain ⟨last, hm', hlast⟩ := hm.of_skipBlank_eq hrest hmid'.symm
  exact ⟨last, hl'.append hm', hlast⟩

theorem Item.WrittenAll.append {items more : List Item} {ls ms : List Lexeme}
    (h : WrittenAll items ls) (hm : WrittenAll more ms) :
    WrittenAll (items ++ more) (ls ++ ms) := by
  induction h with
  | nil => exact hm
  | cons h _ ih =>
    rw [List.cons_append, List.append_assoc]
    exact .cons h ih

theorem parse_append {s t gap : String} {p q : Program} (hp : parse s = .ok p)
    (hq : parse t = .ok q) (hne : gap ≠ "") (hgap : Blank gap.toList) :
    parse (s ++ gap ++ t) = .ok ⟨p.items ++ q.items⟩ := by
  obtain ⟨ls, mid, hls, hl, hmid⟩ := parse_eq_ok_iff_reads.mp hp
  obtain ⟨ms, rest, hms, hm, hrest⟩ := parse_eq_ok_iff_reads.mp hq
  have hbreak : Break (gap.toList ++ t.toList) := by
    cases hg : gap.toList with
    | nil => exact absurd (String.toList_eq_nil_iff.mp hg) hne
    | cons c cs => exact .cons (hgap c (by simp [hg]))
  obtain ⟨last, hm', hlast⟩ := hm.of_skipBlank_eq hrest (hgap.skipBlank_append t.toList).symm
  have he := Item.WrittenAll.endOfInput_not_mem hls
  obtain ⟨last', hr, hlast'⟩ := hl.join hmid he hbreak hm' hlast
  refine parse_of_written (Item.WrittenAll.append hls hms) ?_ hlast'
  simpa using hr

theorem layout_append (unit : String) (lines more : List Line) :
    layout unit (lines ++ more) = layout unit lines ++ layout unit more := by
  rw [layout, List.map_append, String.join_append]
  rfl

theorem Target.render_append (target : Target) (items more : List Item) :
    target.render ⟨items ++ more⟩ = target.render ⟨items⟩ ++ target.render ⟨more⟩ := by
  cases target with
  | javascript =>
    change layout "\t" ((items ++ more).flatMap Item.javascript) = _
    rw [List.flatMap_append, layout_append]
    rfl
  | wordy =>
    change layout "    " ((items ++ more).flatMap Item.source) = _
    rw [List.flatMap_append, layout_append]
    rfl

theorem compile_eq_ok_iff {source code : String} {target : Target} :
    compile source target = .ok code ↔ ∃ p, parse source = .ok p ∧ target.render p = code := by
  rw [compile]
  cases parse source <;> simp [Except.map]

/-- Sources with blanks between them compile to the code of the one and then that of the other. -/
theorem compile_append {s t gap c d : String} {target : Target} (hs : compile s target = .ok c)
    (ht : compile t target = .ok d) (hne : gap ≠ "") (hgap : Blank gap.toList) :
    ∃ p q, parse s = .ok p ∧ parse t = .ok q ∧
      parse (s ++ gap ++ t) = .ok ⟨p.items ++ q.items⟩ ∧
      compile (s ++ gap ++ t) target = .ok (c ++ d) := by
  obtain ⟨p, hp, rfl⟩ := compile_eq_ok_iff.mp hs
  obtain ⟨q, hq, rfl⟩ := compile_eq_ok_iff.mp ht
  have hparse := parse_append hp hq hne hgap
  refine ⟨p, q, hp, hq, hparse, compile_eq_ok_iff.mpr ⟨_, hparse, ?_⟩⟩
  exact target.render_append p.items q.items

/-- The name at the end and the phrase behind it have the words of "but if". -/
theorem compile_append_but :
    compile "call function but" .javascript = .ok "but();\n" ∧
      compile "if x do end of if" .javascript = .ok "if (x) \x7b\n\x7d\n" ∧
      ∃ p q, parse "call function but" = .ok p ∧ parse "if x do end of if" = .ok q ∧
        parse ("call function but" ++ "\n" ++ "if x do end of if") = .ok ⟨p.items ++ q.items⟩ ∧
        compile ("call function but" ++ "\n" ++ "if x do end of if") .javascript =
          .ok ("but();\n" ++ "if (x) \x7b\n\x7d\n") := by
  have hs : compile "call function but" .javascript = .ok "but();\n" := by decide +kernel
  have ht : compile "if x do end of if" .javascript = .ok "if (x) \x7b\n\x7d\n" := by decide +kernel
  exact ⟨hs, ht, compile_append hs ht (by decide) (by simp [Blank, isBlank])⟩

end Wordy
