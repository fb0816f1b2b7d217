import Mathlib
import Wordy.Proofs.CutReaders
import Wordy.Proofs.WrittenPrograms

/-! Expressions, statements, functions and programs on a text and on the part of it before a cut. A
comparison that ends the part may be a longer one in the text. In the part an operand is missing
then, as it would be in the text if that ended there. -/

namespace Wordy

open Text Phrasebook Reader Cut

variable {cut : Cut} {β : Type} {W : β → List Lexeme → Prop}

namespace Atom

theorem distinct_truth : Distinct truthToken [true, false] := ⟨by decide, by decide⟩

theorem starves_readWord : Starves (readWord standard) := .ahead fun _ => Starves.name.bind

theorem starves_read : Starves (read standard) :=
  .take? (by decide) (.quotation? starves_readWord)

theorem keeps_readWord :
    cut.Keeps (readWord standard) (readWord standard) fun a ls => ∃ l, ls = [l] ∧ a.Written l := by
  refine .ahead fun _ _ => .name fun w => ?_
  cases hw : ofWord? w with
  | some a => exact .pure ⟨_, rfl, written_of_ofWord? hw⟩
  | none => exact .of_fails .fail

theorem keeps_read :
    cut.Keeps (read standard) (read standard) fun a ls => ∃ l, ls = [l] ∧ a.Written l := by
  refine .take? distinct_truth (by decide) (fun v _ => .pure ⟨_, rfl, .truth⟩) ?_ ?_
  · exact .quotation? (fun _ => .pure ⟨_, rfl, .text⟩) keeps_readWord.inside
  · exact (Starves.quotation? starves_readWord).ends

end Atom

namespace Link

variable {k k' : Link ⊕ Atom → Reader β}

theorem orderly_operators : Orderly BinaryOperator.token BinaryOperator.all where
  pairwise := by decide
  shorter := by decide

theorem starves_read : Starves (read standard) := .accept (by decide) Atom.starves_read.bind

/-- A link that ends the part has no operand there. -/
theorem keeps_read
    (hlink : ∀ link ls, Link.Written (.inl link) ls →
      cut.Keeps (k (.inl link)) (k' (.inl link)) fun b ms => W b (ls ++ ms))
    (hlast : ∀ last ls, Link.Written (.inr last) ls →
      cut.Keeps (k (.inr last)) (k' (.inr last)) fun b ms => W b (ls ++ ms))
    (hshort : (∀ link, Ends (k (.inl link))) ∨ ∀ link, Fails (k' (.inl link)))
    (hends : ∀ last, Ends (k (.inr last))) :
    cut.Keeps (read standard >>= k) (read standard >>= k') W := by
  have hspelled : ∀ o ∈ BinaryOperator.all, o.token ∈ Token.spelled := by decide
  unfold read
  rw [bind_assoc, bind_assoc]
  refine .accept (by decide) (hlink .negation _ rfl) (Keeps.inside ?_) ?_
  · simp only [Bool.false_eq_true, if_false, bind_assoc]
    refine Atom.keeps_read.bind (fun left ls hls => ?_) fun left => .take? hspelled (hends left)
    obtain ⟨l, rfl, hl⟩ := hls
    -- Of an operator the cut falls into, the part before the cut may be a shorter operator.
    refine (Inside.take?_of orderly_operators (fun o _ => ?_) (fun o _ p _ _ => ?_) ?_).keeps
      (.take? hspelled (hends left))
    · exact (hlink (.operation left o) _ ⟨l, hl, rfl⟩).after
    · exact hshort.imp (fun h => h _) fun h => h _
    · exact (hlast left _ ⟨l, hl, rfl⟩).inside
  · simp only [Bool.false_eq_true, if_false, bind_assoc]
    exact Atom.starves_read.bind.ends

end Link

namespace Expression

theorem starves_readChain (start : List Char) (limit : Nat) :
    Starves (readChain standard start limit) := by
  cases limit with
  | zero => exact Link.starves_read.bind
  | succ limit => exact Link.starves_read.bind

theorem keeps_readChain (start start' : List Char) (limit : Nat) :
    cut.Keeps (readChain standard start limit) (readChain standard start' limit) fun chain ls =>
      (ofChain chain.1 chain.2).Written ls ∧ chain.1.length ≤ limit := by
  induction limit with
  | zero =>
    refine Link.keeps_read (fun _ _ _ => .of_fails .fail) (fun last ls hls => ?_)
      (.inr fun _ => .fail) fun _ => .pure
    obtain ⟨l, hl, rfl⟩ := hls
    exact .pure ⟨.atom hl, Nat.le_refl 0⟩
  | succ limit ih =>
    refine Link.keeps_read (fun link ls hls => ?_) (fun last ls hls => ?_)
      (.inl fun link => (starves_readChain start limit).bind.ends) fun _ => .pure
    · refine ih.bind (fun chain ms hms => .pure ?_) fun _ => .pure
      rw [List.append_nil]
      exact ⟨written_apply hls hms.1, Nat.succ_le_succ hms.2⟩
    · obtain ⟨l, hl, rfl⟩ := hls
      exact .pure ⟨.atom hl, Nat.zero_le _⟩

theorem keeps_read : cut.Keeps (read standard) (read standard) Stated := by
  refine .ahead fun start start' => (keeps_readChain start start' maxOperators).bind
    (fun chain ls hls => .pure ?_) fun _ => .pure
  rw [List.append_nil]
  exact ⟨hls.1, by rw [operators_ofChain]; exact hls.2⟩

end Expression

namespace BaseType

theorem distinct_bases : Distinct token all := ⟨by decide, by decide⟩

theorem spelled_bases : ∀ base ∈ all, token base ∈ Token.spelled := by decide

theorem keeps_read :
    cut.Keeps (read standard) (read standard) fun base ls => ls = [.token base.token] := by
  rw [← bind_pure (read standard)]
  exact .take distinct_bases spelled_bases fun _ _ => .pure rfl

end BaseType

namespace Ascription

theorem Written.typing {a : Ascription} {as : List Lexeme} (h : a.Written as) :
    ∃ u after, as = .token u :: after ∧ ∀ t, t = .toBe ∨ t = .asWord → Typing t u := by
  cases h with
  | @fixed base =>
    refine ⟨_, _, rfl, ?_⟩
    rintro t (rfl | rfl) <;> cases base <;> simp [Typing, BaseType.token]
  | mutable =>
    refine ⟨_, _, rfl, ?_⟩
    rintro t (rfl | rfl) <;> simp [Typing]

theorem inside_read? {g g' : Option Ascription → Reader β}
    (hsome : ∀ a as, a.Written as →
      cut.Keeps (g (some a)) (g' (some a)) fun b ms => W b (as ++ ms))
    (hnone : cut.Inside (g none) (g' none) W) :
    cut.Inside (read? standard >>= g) (read? standard >>= g') W := by
  unfold read?
  rw [bind_assoc, bind_assoc]
  refine .accept (by decide) ?_ ?_
  · simp only [if_true, bind_assoc, pure_bind]
    exact .take BaseType.distinct_bases BaseType.spelled_bases fun base _ => hsome _ _ .mutable
  · simp only [Bool.false_eq_true, if_false, bind_assoc, pure_bind]
    exact .take? BaseType.distinct_bases (fun base _ => hsome _ _ .fixed) hnone

end Ascription

theorem Expression.Initial.typing {e : Expression} {vs : List Lexeme} (h : e.Initial vs) :
    ∃ u after, vs = .token u :: after ∧ Typing .toBe u := by
  cases h <;> exact ⟨_, _, rfl, by simp [Typing]⟩

namespace Statement

variable {body body' : Reader (List Statement)}

theorem inside_initial {g g' : Option Expression → Reader β}
    (hsome : ∀ e vs, Expression.Initial e vs →
      cut.Keeps (g (some e)) (g' (some e)) fun b ms => W b (vs ++ ms))
    (hends : ∀ e, Ends (g (some e))) (hnone : cut.Inside (g none) (g' none) W) :
    cut.Inside
      (optional (return (← take? standard id [.equalTo, .initializedTo]).isSome)
        (Expression.read standard) >>= g)
      (optional (return (← take? standard id [.equalTo, .initializedTo]).isSome)
        (Expression.read standard) >>= g') W := by
  unfold Reader.optional
  simp only [bind_assoc, pure_bind]
  refine .take? ⟨by decide, by decide⟩ (fun t ht => ?_) hnone
  simp only [Option.isSome_some, if_true, bind_assoc, pure_bind]
  refine Expression.keeps_read.bind (fun e vs hvs => hsome e (.token t :: vs) ?_) hends
  simp only [List.mem_cons, List.not_mem_nil, or_false] at ht
  rcases ht with rfl | rfl
  · exact .equalTo hvs
  · exact .initializedTo hvs

theorem ends_initial {g : Option Expression → Reader β} (hnone : Ends (g none)) :
    Ends (Reader.optional (return (← take? standard id [.equalTo, .initializedTo]).isSome)
      (Expression.read standard) >>= g) := by
  unfold Reader.optional
  simp only [bind_assoc, pure_bind]
  exact .take? (by decide) hnone

theorem keeps_readDeclaration :
    cut.Keeps (readDeclaration standard) (readDeclaration standard)
      fun s ls => s.Written (.token .defineVariable :: ls) := by
  refine .ahead fun start start' => .name fun name => .expect (by decide)
    (Inside.after_typing (Ascription.inside_read? (fun a as has => ?_) ?_))
  · simp only [Option.isNone_some, Bool.false_and, Bool.false_eq_true, if_false]
    obtain ⟨u, after, rfl, ht⟩ := has.typing
    have htyping (vs : List Lexeme) :
        ∃ v ms, .token u :: after ++ vs = .token v :: ms ∧ Typing .toBe v :=
      ⟨u, after ++ vs, rfl, ht .toBe (.inl rfl)⟩
    refine Inside.keeps (inside_initial (fun e vs hvs => .pure ?_) (fun _ => .pure)
      (Keeps.inside (.pure ?_))) ?_
    · rw [List.append_nil]
      exact ⟨.declare (.some has) (.some hvs) (.inl nofun), htyping vs⟩
    · exact ⟨.declare (.some has) .none (.inl nofun), htyping []⟩
    · exact ends_initial .pure
  · refine inside_initial (fun e vs hvs => .pure ?_) (fun _ => .pure) (.of_fails .fail)
    rw [List.append_nil]
    exact ⟨.declare .none (.some hvs) (.inr nofun), hvs.typing⟩

theorem keeps_readChange {kind : Change} :
    cut.Keeps (readChange standard kind) (readChange standard kind)
      fun s ls => s.Written (.token kind.token :: ls) := by
  refine .name fun target => .expect (by cases kind <;> decide)
    (Keeps.after (Expression.keeps_read.bind (fun value vs hvs => .pure ?_) fun _ => .pure))
  simpa using Statement.Written.change hvs

theorem keeps_readBranch (hb : cut.Keeps body body' WrittenAll) :
    cut.Keeps (readBranch standard body) (readBranch standard body') Branch.Written := by
  refine Expression.keeps_read.bind (fun condition cs hcs => .expect (by decide)
    (Keeps.after (hb.bind (fun body ss hss => .pure ?_) fun _ => .pure)))
    fun _ => (Starves.expect (by decide)).bind.ends
  exact ⟨cs, ss, hcs, hss, by simp⟩

theorem ends_closeBlock {closing : Token} {g : Unit → Reader β} (h : closing ∈ Token.spelled) :
    Ends (closeBlock standard closing >>= g) :=
  (Starves.closeBlock h).bind.ends

theorem keeps_otherwise (hb : cut.Keeps body body' WrittenAll) :
    cut.Keeps (Reader.optional (accept standard .otherwise) do expect standard .doWord; body)
      (Reader.optional (accept standard .otherwise) do expect standard .doWord; body')
      (Perhaps Otherwise) :=
  .optional (by decide) (.expect (by decide)
    (Keeps.after (hb.mono fun _ ss hss => ⟨ss, hss, rfl⟩)))

theorem keeps_readConditional (hb : cut.Keeps body body' WrittenAll) :
    cut.Keeps (readConditional standard body) (readConditional standard body')
      fun s ls => s.Written (.token .ifWord :: ls) := by
  have hbranches := Keeps.separated (t := .butIf) (by decide) (keeps_readBranch hb)
  refine hbranches.bind (fun branches bs hbs => (keeps_otherwise hb).bind (fun otherwise os hos =>
    (Keeps.closeBlock (by decide)).bind (fun _ ls hls => .pure ?_) fun _ => .pure)
    fun _ => ends_closeBlock (by decide)) fun _ => .bind (.optional (by decide))
    fun _ => ends_closeBlock (by decide)
  subst hls
  simpa using written_conditional hbs hos

theorem keeps_readWhileLoop (hb : cut.Keeps body body' WrittenAll) :
    cut.Keeps (readWhileLoop standard body) (readWhileLoop standard body')
      fun s ls => s.Written (.token .whileWord :: ls) := by
  refine (keeps_readBranch hb).bind (fun loop bs hbs =>
    (Keeps.closeBlock (by decide)).bind (fun _ ls hls => .pure ?_) fun _ => .pure)
    fun _ => ends_closeBlock (by decide)
  obtain ⟨cs, ss, hcs, hss, rfl⟩ := hbs
  subst hls
  simpa using Statement.Written.whileLoop hcs hss

theorem keeps_readForLoop (hb : cut.Keeps body body' WrittenAll) :
    cut.Keeps (readForLoop standard body) (readForLoop standard body')
      fun s ls => s.Written (.token .forWord :: ls) := by
  have hexpect {t : Token} {g : Unit → Reader Statement} (ht : t ∈ Token.spelled) :
      Ends (expect standard t >>= g) := (Starves.expect ht).bind.ends
  refine .name fun iterator => .expect (by decide) (Keeps.after
    (Expression.keeps_read.bind (fun lower ls hls => .expect (by decide) (Keeps.after
    (Expression.keeps_read.bind (fun upper us hus => .expect (by decide) (Keeps.after
    (hb.bind (fun body ss hss => (Keeps.closeBlock (by decide)).bind
    (fun _ qs hqs => .pure ?_) fun _ => .pure) fun _ => ends_closeBlock (by decide))))
    fun _ => hexpect (by decide)))) fun _ => hexpect (by decide)))
  subst hqs
  simpa using Statement.Written.forLoop hls hus hss

theorem keeps_readCall :
    cut.Keeps (readCall standard) (readCall standard)
      fun s ls => s.Written (.token .callFunction :: ls) := by
  have hargument : cut.Keeps (Expression.read standard) (Expression.read standard)
      Expression.Stated := Expression.keeps_read
  have harguments := Keeps.listed (t := .withArg) (by decide) hargument
  have hresult : cut.Keeps (Reader.optional (accept standard .thenPutResultInto) (name standard))
      (Reader.optional (accept standard .thenPutResultInto) (name standard))
      (Perhaps ResultTarget) := by
    refine .optional (by decide) ?_
    rw [← bind_pure (name standard)]
    exact .name fun _ => .pure .mk
  refine .name fun function => harguments.bind (fun arguments as has => hresult.bind
    (fun result rs hrs => .pure ?_) fun _ => .pure) fun _ => .bind (.optional (by decide))
    fun _ => .pure
  simpa using Statement.Written.call has hrs

theorem keeps_read (hb : cut.Keeps body body' WrittenAll) (opening : Opening) :
    cut.Keeps (read standard body opening) (read standard body' opening)
      fun s ls => s.Written (.token opening.token :: ls) := by
  cases opening with
  | declare => exact keeps_readDeclaration
  | change kind => exact keeps_readChange
  | print =>
    exact Expression.keeps_read.bind (fun value vs hvs => .pure (by simpa using .print hvs))
      fun _ => .pure
  | conditional => exact keeps_readConditional hb
  | whileLoop => exact keeps_readWhileLoop hb
  | forLoop => exact keeps_readForLoop hb
  | call => exact keeps_readCall
  | giveBack =>
    exact Expression.keeps_read.bind (fun value vs hvs => .pure (by simpa using .giveBack hvs))
      fun _ => .pure

theorem distinct_openings : Distinct Opening.token Opening.all := ⟨by decide, by decide⟩

theorem ends_readBlock (limit : Nat) : Ends (readBlock standard limit) := by
  cases limit with
  | zero => exact fun _ _ => .inr rfl
  | succ limit => exact .take? (fun o _ => o.token_mem_spelled) .pure

theorem keeps_readBlock (n m : Nat) :
    cut.Keeps (readBlock standard n) (readBlock standard m) WrittenAll := by
  refine .limits rfl rfl (fun n m h => ?_) n m
  refine .take? distinct_openings (fun o _ => o.token_mem_spelled) (fun opening _ =>
    (keeps_read h opening).bind (fun first ls hls => h.bind (fun ss ms hms => .pure ?_)
    fun _ => .pure) fun _ => .bind (ends_readBlock n) fun _ => .pure) (Keeps.pure .nil).inside .pure
  simpa using WrittenAll.cons hls hms

end Statement

theorem Parameter.keeps_read {function : String} :
    cut.Keeps (Parameter.read standard function) (Parameter.read standard function)
      Parameter.Written := by
  refine .ahead fun start start' => .name fun name => .expect (by decide)
    (Inside.after_typing (Ascription.inside_read? (fun a as has => .pure ?_) (.of_fails .fail)))
  obtain ⟨u, after, rfl, htyping⟩ := has.typing
  rw [List.append_nil]
  exact ⟨.mk has, u, after, rfl, htyping .asWord (.inr rfl)⟩

theorem Function.keeps_read {body body' : Reader (List Statement)}
    (hb : cut.Keeps body body' Statement.WrittenAll) :
    cut.Keeps (Function.read standard body) (Function.read standard body')
      fun f ls => f.Written (.token .defineFunction :: ls) := by
  refine .name fun name => ?_
  have hparameter : cut.Keeps (Parameter.read standard name) (Parameter.read standard name)
      Parameter.Written := Parameter.keeps_read
  have hparameters := Keeps.listed (t := .withParam) (by decide) hparameter
  have hreturns : cut.Keeps (Reader.optional (accept standard .thatReturn) (BaseType.read standard))
      (Reader.optional (accept standard .thatReturn) (BaseType.read standard))
      (Perhaps BaseType.Returned) := by
    refine .optional (by decide) (BaseType.keeps_read.mono fun base ls hls => ?_)
    subst hls
    exact .mk
  have hexpect {g : Unit → Reader Function} : Ends (expect standard .doWord >>= g) :=
    (Starves.expect (by decide)).bind.ends
  refine hparameters.bind (fun parameters ps hps => hreturns.bind (fun returns rs hrs =>
    .expect (by decide) (Keeps.after (hb.bind (fun body ss hss =>
    (Keeps.closeBlock (by decide)).bind (fun _ ls hls => .pure ?_) fun _ => .pure)
    fun _ => Statement.ends_closeBlock (by decide)))) fun _ => hexpect)
    fun _ => .bind (.optional (by decide)) fun _ => hexpect
  subst hls
  simpa using Function.Written.mk hps hrs hss

namespace Program

theorem distinct_openings : Distinct Opening.token Opening.all := ⟨by decide, by decide⟩

theorem ends_readItems (limit : Nat) : Ends (readItems standard limit) := by
  cases limit with
  | zero => exact fun _ _ => .inr rfl
  | succ limit =>
    intro c hc
    have hfinish : standard.after? (Opening.token .finish) c.ahead = some [] :=
      after?_endOfInput.mpr ⟨hc, rfl⟩
    have hfirst := first_of_unique (Opening.mem_all .finish)
      (fun o ho hne => standard_after?_eq_none (Opening.apart .finish o ho hne) hfinish) hfinish
    rw [readItems, bind_of_ok (take_eq_of_some (take?_eq_of_some hfirst))]
    rfl

theorem keeps_readItems (n m : Nat) :
    cut.Keeps (readItems standard n) (readItems standard m) WrittenToEnd := by
  refine .limits rfl rfl (fun n m h => ?_) n m
  have hb : cut.Keeps (Statement.readBlock standard n) (Statement.readBlock standard m)
      Statement.WrittenAll := Statement.keeps_readBlock n m
  refine Inside.keeps (.take distinct_openings fun opening _ => ?_) (ends_readItems (n + 1))
  cases opening with
  | finish => exact .pure .nil
  | function =>
    refine (Function.keeps_read hb).bind (fun f ls hls => h.bind (fun items ms hms => .pure ?_)
      fun _ => .pure) fun _ => .bind (ends_readItems n) fun _ => .pure
    simpa [Opening.token] using WrittenToEnd.cons (.function hls) hms
  | statement opening =>
    refine (Statement.keeps_read hb opening).bind (fun s ls hls => h.bind
      (fun items ms hms => .pure ?_) fun _ => .pure) fun _ =>
      .bind (ends_readItems n) fun _ => .pure
    simpa [Opening.token] using WrittenToEnd.cons (.statement hls) hms

theorem keeps_read :
    cut.Keeps (read standard) (read standard) fun p ls => WrittenToEnd p.items ls := by
  refine .get fun _ _ => (keeps_readItems _ _).bind (fun items ls hls => .pure ?_) fun _ => .pure
  rwa [List.append_nil]

end Program

end Wordy
