import Mathlib
import Wordy.Parse
import Wordy.Proofs.WrittenForms

/-! Blocks, functions and whole programs are read where they are written. The bound on the text
carries the limits through the nested blocks: each round starts behind a phrase, and so in a shorter
text. -/

namespace Wordy

open Text Phrasebook Reader Statement

theorem Statement.admits_readBlock_nil {n limit : Nat} (hn : n ≤ limit) :
    Admits n (readBlock standard limit) [] [] blockTokens := by
  cases limit with
  | zero =>
    obtain rfl := Nat.le_zero.mp hn
    exact admits_zero
  | succ limit =>
    have ho : Admits n (take? standard Opening.token Opening.all) none []
        (Opening.all.map Opening.token) := admits_take?_none
    exact ho.bind .pure (.nil (List.subset_append_right _ _))

mutual

theorem Statement.Written.admits {s : Statement} {ls : List Lexeme} :
    s.Written ls → ∃ o tail, ls = .token (Opening.token o) :: tail ∧ ∀ n limit, n ≤ limit →
      Admits n (Statement.read standard (readBlock standard limit) o) s tail continuations
  | .declare ha hv h => ⟨.declare, _, rfl, fun _ _ _ => admits_readDeclaration ha hv h⟩
  | .change hv => ⟨.change _, _, rfl, fun _ _ _ => admits_readChange hv⟩
  | .print hv =>
    ⟨.print, _, rfl, fun _ _ _ => (Expression.admits_read hv).map.mono operators_subset⟩
  | .conditional hb =>
    ⟨.conditional, _, rfl, fun n limit hn =>
      (admits_readConditional (hb.admits n limit hn)).mono (List.nil_subset _)⟩
  | .conditionalOtherwise hb hs =>
    ⟨.conditional, _, rfl, fun n limit hn =>
      (admits_readConditional_otherwise (hb.admits n limit hn) (hs.admits n limit hn)).mono
        (List.nil_subset _)⟩
  | .whileLoop hc hs =>
    ⟨.whileLoop, _, rfl, fun n limit hn =>
      (admits_readWhileLoop hc (hs.admits n limit hn)).mono (List.nil_subset _)⟩
  | .forLoop hl hu hs =>
    ⟨.forLoop, _, rfl, fun n limit hn =>
      (admits_readForLoop hl hu (hs.admits n limit hn)).mono (List.nil_subset _)⟩
  | .call ha hr => ⟨.call, _, rfl, fun _ _ _ => admits_readCall ha hr⟩
  | .giveBack hv =>
    ⟨.giveBack, _, rfl, fun _ _ _ => (Expression.admits_read hv).map.mono operators_subset⟩

theorem Statement.WrittenAll.admits {ss : List Statement} {ls : List Lexeme} :
    WrittenAll ss ls → ∀ n limit, n ≤ limit →
      Admits n (readBlock standard limit) ss ls blockTokens
  | .nil => fun _ _ hn => admits_readBlock_nil hn
  | .cons h hs => by
    intro n limit hn
    obtain ⟨o, tail, rfl, ho⟩ := h.admits
    cases limit with
    | zero =>
      obtain rfl := Nat.le_zero.mp hn
      exact admits_zero
    | succ limit =>
      have hm (m : Nat) (hm : m < n) : m ≤ limit := Nat.le_of_lt_succ (hm.trans_le hn)
      exact admits_readBlock_cons (fun m h => ho m limit (hm m h))
        (fun m h => hs.admits m limit (hm m h)) hs.leads

theorem Branch.WrittenAll.admits {bs : List Branch} {ls : List Lexeme} :
    Branch.WrittenAll bs ls → ∀ n limit, n ≤ limit →
      Separated .butIf (fun b ls =>
        Admits n (readBranch standard (readBlock standard limit)) b ls blockTokens) bs ls
  | .one hc hs => fun n limit hn => .one (admits_readBranch hc (hs.admits n limit hn))
  | .more hc hs hb => by
    intro n limit hn
    rw [← List.cons_append, ← List.append_assoc]
    exact .more (admits_readBranch hc (hs.admits n limit hn)) (hb.admits n limit hn)

end

theorem Parameter.admits_read {n : Nat} {p : Parameter} {ls : List Lexeme} (h : p.Written ls)
    (function : String) : Admits n (Parameter.read standard function) p ls Ascription.tokens := by
  unfold Parameter.read
  cases h with
  | @mk name ascription as h =>
    refine .ahead fun start => admits_name.bind (admits_expect.bind ?_ .none) .none
    rw [← List.append_nil as]
    exact (Ascription.admits_read? (.some h)).bind .pure (.nil (List.Subset.refl _))

theorem Function.leads_returns {returns : Option BaseType} {rs ls : List Lexeme}
    {later : List Token} (h : Perhaps BaseType.Returned returns rs) :
    Leads (rs ++ .token .doWord :: ls) later (.withParam :: .comma :: Ascription.tokens) := by
  cases h with
  | none => exact .token (by decide)
  | some h =>
    cases h
    exact .token (by decide)

theorem Function.admits_returns {n : Nat} {returns : Option BaseType} {rs : List Lexeme}
    (h : Perhaps BaseType.Returned returns rs) :
    Admits n (optional (accept standard .thatReturn) (BaseType.read standard)) returns rs
      [.thatReturn] := by
  cases h with
  | none => exact admits_optional_none admits_accept_false
  | some h =>
    cases h
    exact (admits_optional_some admits_accept_true (BaseType.admits_read _)).mono
      (List.nil_subset _)

/-- The token that opens a function is not part of what its reader reads. -/
theorem Function.Written.admits {f : Function} {ls : List Lexeme} (h : f.Written ls) :
    ∃ tail, ls = .token .defineFunction :: tail ∧ ∀ n limit, n ≤ limit →
      Admits n (Function.read standard (readBlock standard limit)) f tail [] := by
  cases h with
  | @mk name parameters returns body ps rs ss hp hr hs =>
    refine ⟨_, rfl, fun n limit hn => ?_⟩
    unfold Function.read
    obtain ⟨found, rfl, hfound⟩ := admits_listed (n := n) (by decide)
      (fun _ _ h => Parameter.admits_read h name) hp
    refine admits_name.bind (hfound.bind ?_ (leads_returns hr)) .none
    refine (admits_returns hr).bind (admits_expect.bind ?_ .none) (.token (by decide))
    exact (hs.admits n limit hn).bind admits_closeBlock.map (.token (by decide))

namespace Program

theorem Opening.mem_all (o : Opening) : o ∈ all := by
  cases o with
  | statement o => exact List.mem_append_left _ (List.mem_map_of_mem o.mem_all)
  | _ => decide

theorem Opening.apart (o : Opening) : ∀ p ∈ all, p ≠ o → o.token.Apart p.token := by
  cases o with
  | statement o =>
    cases o with
    | change kind => cases kind <;> decide
    | _ => decide
  | _ => decide

theorem admits_take {n : Nat} (o : Opening) :
    Admits n (take standard Opening.token Opening.all) o [.token o.token] [] :=
  Reader.admits_take o.mem_all o.apart

theorem leads_items {items : List Item} {ls : List Lexeme} (h : Item.WrittenAll items ls) :
    Leads (ls ++ [.token .endOfInput]) [] continuations := by
  cases h with
  | nil => exact .token (by decide)
  | cons h _ =>
    cases h with
    | function h =>
      obtain ⟨tail, rfl, -⟩ := h.admits
      exact .token (by decide)
    | statement h =>
      obtain ⟨o, tail, rfl, -⟩ := h.admits
      exact .token (opening_apart o)

theorem admits_readItems {items : List Item} {ls : List Lexeme} (h : Item.WrittenAll items ls)
    {n limit : Nat} (hn : n ≤ limit) :
    Admits n (readItems standard limit) items (ls ++ [.token .endOfInput]) [] := by
  induction h generalizing n limit with
  | nil =>
    cases limit with
    | zero =>
      obtain rfl := Nat.le_zero.mp hn
      exact admits_zero
    | succ limit => exact (admits_take .finish).bind .pure .none
  | @cons i is ls ms h hs ih =>
    cases limit with
    | zero =>
      obtain rfl := Nat.le_zero.mp hn
      exact admits_zero
    | succ limit =>
      have hm (m : Nat) (hm : m < n) : m ≤ limit := Nat.le_of_lt_succ (hm.trans_le hn)
      rw [List.append_assoc]
      cases h with
      | function h =>
        obtain ⟨tail, rfl, hf⟩ := h.admits
        exact (admits_take .function).bind_token (by decide) fun m h =>
          (hf m limit (hm m h)).bind (ih (hm m h)).map .none
      | statement h =>
        obtain ⟨o, tail, rfl, ho⟩ := h.admits
        exact (admits_take (.statement o)).bind_token o.token_mem_spelled fun m h =>
          (ho m limit (hm m h)).bind (ih (hm m h)).map (leads_items hs)

end Program

theorem parse_of_written {source : String} {p : Program} {ls : List Lexeme} {rest : List Char}
    (hw : p.Written ls) (hr : Reads standard ls source.toList rest) (hb : skipBlank rest = []) :
    parse source = .ok p := by
  have hend : Reads standard [.token .endOfInput] rest [] :=
    .single (.token (after?_endOfInput.mpr ⟨hb, rfl⟩))
  obtain ⟨tried, hok⟩ := Program.admits_readItems hw le_rfl (c := .start source.toList)
    (Nat.lt_succ_self _) (hr.append hend) (by simp [Stops])
  have hread : Program.read standard (.start source.toList) = .ok p ⟨[], tried⟩ :=
    bind_eq_ok.mpr ⟨.start source.toList, _, rfl, bind_eq_ok.mpr ⟨p.items, _, hok, rfl⟩⟩
  exact parseWith_of_ok hread

theorem parse_eq_ok_iff_reads {source : String} {p : Program} :
    parse source = .ok p ↔ ∃ ls rest, p.Written ls ∧ Reads standard ls source.toList rest ∧
      skipBlank rest = [] :=
  ⟨written_of_parseWith, fun ⟨_, _, hw, hr, hb⟩ => parse_of_written hw hr hb⟩

end Wordy
