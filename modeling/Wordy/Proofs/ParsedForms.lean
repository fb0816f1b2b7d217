import Mathlib
import Wordy.Parse
import Wordy.Proofs.ParsedExpressions

/-! What is read has the form that the grammar gives it, under any phrasebook, and what was looked
for in vain could have stood there. -/

namespace Wordy

open Text Reader

variable {book : Phrasebook}

namespace Reader

variable {α : Type} {W : α → List Lexeme → Prop}

/-- A value that is there. -/
def Given (shape : α → List Lexeme → Prop) (found : Option α) (ls : List Lexeme) : Prop :=
  ∃ a, found = some a ∧ shape a ls

theorem offers_optional {sign : Reader Bool} {part : Reader α} {V : List Lexeme → Prop}
    (hs : Offers book sign (fun found ls => if found then V ls else ls = [])
      fun found ls => found = true ∧ V ls)
    (hp : ∀ ls, V ls → Offers book part (fun a ms => W a (ls ++ ms)) fun a ms => W a (ls ++ ms))
    (hx : ∀ ls, V ls → Open W ls) :
    Offers book (optional sign part) (Perhaps W) (Given W) := by
  unfold optional
  refine hs.bind (fun found ls hls => ?_) ?_
  · cases found with
    | true =>
      refine (hp ls hls).bind (fun a ms hms => .pure ?_) fun a ms hms => ?_
      · rw [List.append_nil]
        exact .some hms
      · exact ⟨some a, [], filler_nil, a, rfl, by rwa [List.append_nil]⟩
    | false =>
      obtain rfl := hls
      exact .pure .none
  · rintro _ ls ⟨rfl, hls⟩
    obtain ⟨a, more, hmore, h⟩ := hx ls hls
    exact ⟨some a, more, hmore, a, rfl, h⟩

/-- More items after an item, if a separator comes next. -/
def More (t : Token) (W : α → List Lexeme → Prop) (as : List α) (ls : List Lexeme) : Prop :=
  ∃ ms, ls = .token t :: ms ∧ Separated t W as ms

theorem More.cons {t : Token} {a : α} {as : List α} {ls ms : List Lexeme} (h : More t W as ms)
    (ha : W a ls) : Separated t W (a :: as) (ls ++ ms) := by
  obtain ⟨ns, rfl, hs⟩ := h
  exact .more ha hs

theorem offers_others {t : Token} {item : Reader α} (hi : Offers book item W W)
    (ho : Open W []) (limit : Nat) :
    Offers book (others (accept book t) item limit)
      (fun as ls => as = [] ∧ ls = [] ∨ More t W as ls) (More t W) := by
  induction limit with
  | zero => exact offers_ahead.bind (fun _ _ _ => .fail nofun nofun) Nowhere.elim
  | succ limit ih =>
    unfold others
    refine offers_accept.bind (fun found ls hls => ?_) ?_
    · cases found with
      | false =>
        obtain rfl : ls = [] := hls
        exact .pure (.inl ⟨rfl, rfl⟩)
      | true =>
        obtain rfl : ls = [.token t] := hls
        refine hi.bind (fun a ms hms => ih.bind (fun as ns hns => .pure ?_) ?_) ?_
        · rcases hns with ⟨rfl, rfl⟩ | hns
          · exact .inr ⟨ms, by simp, .one hms⟩
          · exact .inr ⟨ms ++ ns, by simp, hns.cons hms⟩
        · intro as ns hns
          exact ⟨a :: as, [], filler_nil, ms ++ ns, by simp, hns.cons hms⟩
        · intro a ms hms
          exact ⟨[a], [], filler_nil, ms, by simp, .one hms⟩
    · rintro _ ls ⟨rfl, rfl⟩
      obtain ⟨a, more, hmore, h⟩ := ho
      exact ⟨[a], more, hmore, more, rfl, .one h⟩

theorem offers_separated {t : Token} {item : Reader α} (hi : Offers book item W W)
    (ho : Open W []) :
    Offers book (separated (accept book t) item) (Separated t W) (Separated t W) := by
  unfold separated
  refine hi.bind (fun a ls hls => offers_get.bind (fun c ks hks => ?_) Nowhere.elim) ?_
  · subst hks
    refine (offers_others hi ho _).bind (fun as ms hms => .pure ?_) fun as ms hms => ?_
    · rcases hms with ⟨rfl, rfl⟩ | hms
      · simpa using Separated.one hls
      · simpa using hms.cons hls
    · exact ⟨a :: as, [], filler_nil, by simpa using hms.cons hls⟩
  · intro a ls hls
    exact ⟨[a], [], filler_nil, by simpa using Separated.one hls⟩

theorem offers_sign {t : Token} :
    Offers book (accept book t)
      (fun found ls => if found then ls = [.token t] else ls = [])
      fun found ls => found = true ∧ ls = [.token t] := by
  refine offers_accept.mono (fun found ls hls => ?_) fun _ _ h => h
  cases found <;> exact hls

theorem offers_listed {sign : Token} {item : Reader α} (hi : Offers book item W W)
    (ho : Open W []) :
    Offers book (optional (accept book sign) (separated (accept book .comma) item))
      (fun found ls => Listed sign W (found.getD []) ls)
      fun found ls => Listed sign W (found.getD []) ls := by
  have hlist : Offers book (optional (accept book sign) (separated (accept book .comma) item))
      (Perhaps (Listed sign W)) (Given (Listed sign W)) := by
    refine offers_optional offers_sign (fun ls hls => ?_) fun ls hls => ?_
    · subst hls
      exact (offers_separated hi ho).mono (fun _ _ => .some) fun _ _ => .some
    · subst hls
      obtain ⟨a, more, hmore, h⟩ := ho
      exact ⟨[a], more, hmore, .some (.one h)⟩
  refine hlist.mono (fun found ls h => ?_) fun found ls h => ?_
  · cases h with
    | none => exact .none
    | some h => exact h
  · obtain ⟨as, rfl, h⟩ := h
    exact h

end Reader

theorem BaseType.offers_read :
    Offers book (BaseType.read book) (fun base ls => ls = [.token base.token])
      fun base ls => ls = [.token base.token] :=
  offers_take.mono (fun _ _ h => h.2) fun _ _ h => h.2

theorem Ascription.offers_read? :
    Offers book (Ascription.read? book) (Perhaps Ascription.Written)
      (Given Ascription.Written) := by
  unfold Ascription.read?
  refine offers_accept.bind (fun found ls hls => ?_) ?_
  · cases found with
    | true =>
      obtain rfl : ls = [.token .mutableWord] := hls
      refine BaseType.offers_read.bind (fun base ms hms => .pure ?_) fun base ms hms => ?_
      · subst hms
        exact .some .mutable
      · subst hms
        exact ⟨some ⟨true, base⟩, [], filler_nil, _, rfl, .mutable⟩
    | false =>
      obtain rfl : ls = [] := hls
      refine offers_take?.bind (fun base ms hms => .pure ?_) ?_
      · cases base with
        | none =>
          obtain rfl : ms = [] := hms
          exact .none
        | some base =>
          obtain ⟨-, rfl⟩ := hms
          exact .some .fixed
      · rintro _ _ ⟨base, -, rfl, rfl⟩
        exact ⟨some ⟨false, base⟩, [], filler_nil, _, rfl, .fixed⟩
  · rintro _ _ ⟨rfl, rfl⟩
    exact ⟨some ⟨true, .number⟩, [.token .numberType], by simp, _, rfl, .mutable⟩

theorem Ascription.written_number : Ascription.Written ⟨false, .number⟩ [.token .numberType] :=
  .fixed

theorem offers_closeBlock {closing : Token} :
    Offers book (closeBlock book closing) (fun _ ls => ls = [.token closing])
      fun _ ls => ls = [.token closing] := by
  rw [closeBlock_eq]
  refine offers_accept.bind (fun found ls hls => ?_) ?_
  · cases found with
    | true => exact .pure (by simpa using hls)
    | false =>
      obtain rfl : ls = [] := hls
      exact .refuseBlock
  · rintro _ _ ⟨rfl, rfl⟩
    exact ⟨(), [], filler_nil, by simp⟩

def Branch.Written (branch : Branch) (ls : List Lexeme) : Prop :=
  ∃ cs ss, branch.condition.Stated cs ∧ Statement.WrittenAll branch.body ss ∧
    ls = cs ++ .token .doWord :: ss

theorem Branch.writtenAll_of_separated {branches : List Branch} {ls : List Lexeme}
    (h : Separated .butIf Branch.Written branches ls) : Branch.WrittenAll branches ls := by
  induction h with
  | @one branch _ h =>
    obtain ⟨cs, ss, hc, hs, rfl⟩ := h
    cases branch
    exact .one hc hs
  | @more branch _ _ _ h _ ih =>
    obtain ⟨cs, ss, hc, hs, rfl⟩ := h
    cases branch
    simpa using Branch.WrittenAll.more hc hs ih

theorem Expression.open_stated : Open Stated [] := ⟨_, [.word "x"], by simp, stated_x⟩

namespace Statement

variable {body : Reader (List Statement)}

theorem offers_initial :
    Offers book
      (optional (return (← take? book id [.equalTo, .initializedTo]).isSome) (Expression.read book))
      (Perhaps Expression.Initial) (Given Expression.Initial) := by
  refine offers_optional (V := fun ls => ls = [.token .equalTo] ∨ ls = [.token .initializedTo])
    (offers_take?.bind (fun found ls hls => .pure ?_) ?_) (fun ls hls => ?_) fun ls hls => ?_
  · cases found with
    | none => simpa [Choice] using hls
    | some t =>
      obtain ⟨ht, rfl⟩ := hls
      simpa using ht
  · rintro _ _ ⟨t, ht, rfl, rfl⟩
    exact ⟨true, [], filler_nil, rfl, by simpa using ht⟩
  · have hw (e : Expression) (ms : List Lexeme) (h : e.Stated ms) :
        Expression.Initial e (ls ++ ms) := by
      rcases hls with rfl | rfl
      · exact .equalTo h
      · exact .initializedTo h
    exact Expression.offers_read.mono hw hw
  · rcases hls with rfl | rfl
    · exact ⟨_, [.word "x"], by simp, .equalTo Expression.stated_x⟩
    · exact ⟨_, [.word "x"], by simp, .initializedTo Expression.stated_x⟩

theorem written_typed (name : String) :
    Statement.Written (.declare name (some ⟨false, .number⟩) none)
      [.token .defineVariable, .word name, .token .toBe, .token .numberType] :=
  .declare (.some Ascription.written_number) .none (.inl nofun)

theorem offers_readDeclaration :
    Offers book (readDeclaration book) (fun s ls => s.Written (.token .defineVariable :: ls))
      fun s ls => s.Written (.token .defineVariable :: ls) := by
  unfold readDeclaration
  refine offers_ahead.bind (fun start ls hls => offers_name.bind (fun name ms hms =>
    offers_expect.bind (fun _ ns hns => Ascription.offers_read?.bind (fun ascription as has =>
    offers_initial.bind (fun value vs hvs => ?_) ?_) ?_) ?_) ?_) Nowhere.elim
  -- First the whole declaration, then what makes up for a part that is missing, the last one first.
  · subst hls hms hns
    split
    · exact .fail nofun nofun
    · next hn =>
      refine .pure ?_
      have hsome : ascription ≠ none ∨ value ≠ none := by
        cases ascription <;> cases value <;> simp_all
      simpa using Statement.Written.declare has hvs hsome
  · rintro _ vs ⟨e, rfl, he⟩
    subst hls hms hns
    exact ⟨.declare name ascription (some e), [], filler_nil, by
      simpa using Statement.Written.declare has (.some he) (.inr nofun)⟩
  · rintro _ as ⟨a, rfl, ha⟩
    subst hls hms hns
    exact ⟨.declare name (some a) none, [], filler_nil, by
      simpa using Statement.Written.declare (.some ha) .none (.inl nofun)⟩
  · rintro _ _ rfl
    subst hls hms
    exact ⟨_, [.token .numberType], by simp, written_typed name⟩
  · rintro _ _ ⟨rfl, rfl⟩
    subst hls
    exact ⟨_, [.token .toBe, .token .numberType], by simp, written_typed "x"⟩

theorem offers_readChange {kind : Change} :
    Offers book (readChange book kind) (fun s ls => s.Written (.token kind.token :: ls))
      fun s ls => s.Written (.token kind.token :: ls) := by
  unfold readChange
  refine offers_name.bind (fun target ls hls => offers_expect.bind (fun _ ms hms =>
    Expression.offers_read.bind (fun value vs hvs => .pure ?_) ?_) ?_) ?_
  · subst hls hms
    simpa using Statement.Written.change hvs
  · intro value vs hvs
    subst hls hms
    exact ⟨.change kind target value, [], filler_nil, by simpa using .change hvs⟩
  · rintro _ _ rfl
    subst hls
    exact ⟨_, [.word "x"], by simp, .change Expression.stated_x⟩
  · rintro _ _ ⟨rfl, rfl⟩
    exact ⟨_, [.token kind.connector, .word "x"], by simp, .change Expression.stated_x⟩

theorem offers_readBranch (hb : Offers book body WrittenAll WrittenAll) :
    Offers book (readBranch book body) Branch.Written Branch.Written := by
  unfold readBranch
  refine Expression.offers_read.bind (fun condition cs hcs => offers_expect.bind (fun _ ls hls =>
    hb.bind (fun body ss hss => .pure ⟨cs, ss, hcs, hss, ?_⟩) ?_) ?_) ?_
  · simp [hls]
  · intro body ss hss
    exact ⟨⟨condition, body⟩, [], filler_nil, cs, ss, hcs, hss, by simp [hls]⟩
  · rintro _ _ rfl
    exact ⟨⟨condition, []⟩, [], filler_nil, cs, [], hcs, .nil, by simp⟩
  · intro condition cs hcs
    exact ⟨⟨condition, []⟩, [.token .doWord], by simp, cs, [], hcs, .nil, rfl⟩

theorem open_branch : Open Branch.Written [] :=
  ⟨⟨_, []⟩, [.word "x", .token .doWord], by simp, _, [], Expression.stated_x, .nil, rfl⟩

/-- The last branch of a conditional, without a condition. -/
def Otherwise (body : List Statement) (ls : List Lexeme) : Prop :=
  ∃ ss, WrittenAll body ss ∧ ls = .token .otherwise :: .token .doWord :: ss

theorem offers_otherwise (hb : Offers book body WrittenAll WrittenAll) :
    Offers book (optional (accept book .otherwise) do expect book .doWord; body)
      (Perhaps Otherwise) (Given Otherwise) := by
  refine offers_optional offers_sign (fun ls hls => offers_expect.bind (fun _ ms hms => ?_) ?_)
    fun ls hls => ?_
  · subst hls hms
    exact hb.mono (fun body ss hss => ⟨ss, hss, rfl⟩) fun body ss hss => ⟨ss, hss, rfl⟩
  · rintro _ _ rfl
    subst hls
    exact ⟨[], [], filler_nil, [], .nil, rfl⟩
  · subst hls
    exact ⟨[], [.token .doWord], by simp, [], .nil, rfl⟩

theorem written_conditional {branches : List Branch} {otherwise : Option (List Statement)}
    {bs os : List Lexeme} (hb : Separated .butIf Branch.Written branches bs)
    (ho : Perhaps Otherwise otherwise os) :
    Statement.Written (.conditional branches otherwise)
      (.token .ifWord :: (bs ++ (os ++ [.token .endOfIf]))) := by
  have hb := Branch.writtenAll_of_separated hb
  cases ho with
  | none => exact .conditional hb
  | some h =>
    obtain ⟨ss, hss, rfl⟩ := h
    exact .conditionalOtherwise hb hss

theorem offers_readConditional (hb : Offers book body WrittenAll WrittenAll) :
    Offers book (readConditional book body) (fun s ls => s.Written (.token .ifWord :: ls))
      fun s ls => s.Written (.token .ifWord :: ls) := by
  unfold readConditional
  refine (offers_separated (offers_readBranch hb) open_branch).bind (fun branches bs hbs =>
    (offers_otherwise hb).bind (fun otherwise os hos =>
    offers_closeBlock.bind (fun _ ls hls => .pure ?_) ?_) ?_) ?_
  · subst hls
    simpa using written_conditional hbs hos
  · rintro _ _ rfl
    exact ⟨.conditional branches otherwise, [], filler_nil, by
      simpa using written_conditional hbs hos⟩
  · rintro _ os ⟨body, rfl, h⟩
    exact ⟨.conditional branches (some body), [.token .endOfIf], by simp, by
      simpa using written_conditional hbs (.some h)⟩
  · intro branches bs hbs
    exact ⟨.conditional branches none, [.token .endOfIf], by simp, by
      simpa using written_conditional hbs .none⟩

theorem offers_readWhileLoop (hb : Offers book body WrittenAll WrittenAll) :
    Offers book (readWhileLoop book body) (fun s ls => s.Written (.token .whileWord :: ls))
      fun s ls => s.Written (.token .whileWord :: ls) := by
  unfold readWhileLoop
  have hw {loop : Branch} {bs : List Lexeme} (h : loop.Written bs) :
      Statement.Written (.whileLoop loop.condition loop.body)
        (.token .whileWord :: (bs ++ [.token .endOfWhile])) := by
    obtain ⟨cs, ss, hcs, hss, rfl⟩ := h
    simpa using Statement.Written.whileLoop hcs hss
  refine (offers_readBranch hb).bind (fun loop bs hbs => offers_closeBlock.bind (fun _ ls hls =>
    .pure ?_) ?_) ?_
  · subst hls
    simpa using hw hbs
  · rintro _ _ rfl
    exact ⟨_, [], filler_nil, by simpa using hw hbs⟩
  · intro loop bs hbs
    exact ⟨_, [.token .endOfWhile], by simp, hw hbs⟩

theorem offers_readForLoop (hb : Offers book body WrittenAll WrittenAll) :
    Offers book (readForLoop book body) (fun s ls => s.Written (.token .forWord :: ls))
      fun s ls => s.Written (.token .forWord :: ls) := by
  unfold readForLoop
  refine offers_name.bind (fun iterator ls hls => offers_expect.bind (fun _ ms hms =>
    Expression.offers_read.bind (fun lower ns hns => offers_expect.bind (fun _ os hos =>
    Expression.offers_read.bind (fun upper us hus => offers_expect.bind (fun _ ps hps =>
    hb.bind (fun body ss hss => offers_closeBlock.bind (fun _ qs hqs => .pure ?_) ?_) ?_) ?_) ?_)
    ?_) ?_) ?_) ?_
  -- First the whole loop, then what makes up for a part that is missing, the last one first.
  · subst hls hms hos hps hqs
    simpa using Statement.Written.forLoop hns hus hss
  · rintro _ _ rfl
    subst hls hms hos hps
    exact ⟨.forLoop iterator lower upper body, [], filler_nil, by
      simpa using Statement.Written.forLoop hns hus hss⟩
  · intro body ss hss
    subst hls hms hos hps
    exact ⟨.forLoop iterator lower upper body, [.token .endOfFor], by simp, by
      simpa using Statement.Written.forLoop hns hus hss⟩
  · rintro _ _ rfl
    subst hls hms hos
    exact ⟨.forLoop iterator lower upper [], [.token .endOfFor], by simp, by
      simpa using Statement.Written.forLoop hns hus .nil⟩
  · intro upper us hus
    subst hls hms hos
    exact ⟨.forLoop iterator lower upper [], [.token .doWord, .token .endOfFor], by simp, by
      simpa using Statement.Written.forLoop hns hus .nil⟩
  · rintro _ _ rfl
    subst hls hms
    exact ⟨.forLoop iterator lower _ [], [.word "x", .token .doWord, .token .endOfFor], by simp, by
      simpa using Statement.Written.forLoop hns Expression.stated_x .nil⟩
  · intro lower ns hns
    subst hls hms
    exact ⟨.forLoop iterator lower _ [],
      [.token .toWord, .word "x", .token .doWord, .token .endOfFor], by simp, by
      simpa using Statement.Written.forLoop hns Expression.stated_x .nil⟩
  · rintro _ _ rfl
    subst hls
    exact ⟨_, [.word "x", .token .toWord, .word "x", .token .doWord, .token .endOfFor], by simp,
      .forLoop Expression.stated_x Expression.stated_x .nil⟩
  · rintro _ _ ⟨rfl, rfl⟩
    exact ⟨_, [.token .fromWord, .word "x", .token .toWord, .word "x", .token .doWord,
      .token .endOfFor], by simp, .forLoop Expression.stated_x Expression.stated_x .nil⟩

theorem offers_result :
    Offers book (optional (accept book .thenPutResultInto) (name book))
      (Perhaps ResultTarget) (Given ResultTarget) := by
  refine offers_optional offers_sign (fun ls hls => ?_) fun ls hls => ?_
  · subst hls
    refine offers_name.mono (fun n ms hms => ?_) fun n ms hms => ?_
    · subst hms
      exact .mk
    · obtain ⟨rfl, rfl⟩ := hms
      exact .mk
  · subst hls
    exact ⟨_, [.word "x"], by simp, .mk⟩

theorem offers_readCall :
    Offers book (readCall book) (fun s ls => s.Written (.token .callFunction :: ls))
      fun s ls => s.Written (.token .callFunction :: ls) := by
  unfold readCall
  refine offers_name.bind (fun function ls hls =>
    (offers_listed Expression.offers_read Expression.open_stated).bind (fun arguments as has =>
    offers_result.bind (fun result rs hrs => .pure ?_) ?_) ?_) ?_
  · subst hls
    simpa using Statement.Written.call has hrs
  · rintro _ rs ⟨r, rfl, hr⟩
    subst hls
    exact ⟨.call function (arguments.getD []) (some r), [], filler_nil, by
      simpa using Statement.Written.call has (.some hr)⟩
  · intro arguments as has
    subst hls
    exact ⟨.call function (arguments.getD []) none, [], filler_nil, by
      simpa using Statement.Written.call has .none⟩
  · rintro _ _ ⟨rfl, rfl⟩
    exact ⟨_, [], filler_nil, .call .none .none⟩

theorem offers_read (hb : Offers book body WrittenAll WrittenAll) (opening : Opening) :
    Offers book (read book body opening) (fun s ls => s.Written (.token opening.token :: ls))
      fun s ls => s.Written (.token opening.token :: ls) := by
  cases opening with
  | declare => exact offers_readDeclaration
  | change kind => exact offers_readChange
  | print =>
    exact Expression.offers_read.bind (fun value vs hvs => .pure (by simpa using .print hvs))
      fun value vs hvs => ⟨.print value, [], filler_nil, by simpa using .print hvs⟩
  | conditional => exact offers_readConditional hb
  | whileLoop => exact offers_readWhileLoop hb
  | forLoop => exact offers_readForLoop hb
  | call => exact offers_readCall
  | giveBack =>
    exact Expression.offers_read.bind (fun value vs hvs => .pure (by simpa using .giveBack hvs))
      fun value vs hvs => ⟨.giveBack value, [], filler_nil, by simpa using .giveBack hvs⟩

theorem open_statement (opening : Opening) :
    Open (fun s ls => Statement.Written s (.token opening.token :: ls)) [] := by
  have hx := Expression.stated_x
  cases opening with
  | declare =>
    exact ⟨_, [.word "x", .token .toBe, .token .numberType], by simp, written_typed "x"⟩
  | change kind => exact ⟨_, [.word "x", .token kind.connector, .word "x"], by simp, .change hx⟩
  | print => exact ⟨_, [.word "x"], by simp, .print hx⟩
  | conditional =>
    exact ⟨_, [.word "x", .token .doWord, .token .endOfIf], by simp, .conditional (.one hx .nil)⟩
  | whileLoop =>
    exact ⟨_, [.word "x", .token .doWord, .token .endOfWhile], by simp, .whileLoop hx .nil⟩
  | forLoop =>
    exact ⟨_, [.word "x", .token .fromWord, .word "x", .token .toWord, .word "x", .token .doWord,
      .token .endOfFor], by simp, .forLoop hx hx .nil⟩
  | call => exact ⟨_, [.word "x"], by simp, .call .none .none⟩
  | giveBack => exact ⟨_, [.word "x"], by simp, .giveBack hx⟩

theorem offers_readBlock (limit : Nat) :
    Offers book (readBlock book limit) WrittenAll WrittenAll := by
  induction limit with
  | zero => exact offers_ahead.bind (fun _ _ _ => .fail nofun nofun) Nowhere.elim
  | succ limit ih =>
    unfold readBlock
    refine offers_take?.bind (fun opening ls hls => ?_) ?_
    · cases opening with
      | none =>
        obtain rfl : ls = [] := hls
        exact .pure .nil
      | some opening =>
        obtain ⟨-, rfl⟩ := hls
        refine (offers_read ih opening).bind (fun first ms hms => ih.bind (fun ss ns hns =>
          .pure ?_) ?_) ?_
        · simpa using WrittenAll.cons hms hns
        · intro ss ns hns
          exact ⟨first :: ss, [], filler_nil, by simpa using WrittenAll.cons hms hns⟩
        · intro s ms hms
          exact ⟨[s], [], filler_nil, by simpa using WrittenAll.cons hms .nil⟩
    · rintro _ _ ⟨opening, -, rfl, rfl⟩
      obtain ⟨s, more, hmore, h⟩ := open_statement opening
      exact ⟨[s], more, hmore, by simpa using WrittenAll.cons h .nil⟩

end Statement

theorem Parameter.offers_read {function : String} :
    Offers book (Parameter.read book function) Parameter.Written Parameter.Written := by
  unfold Parameter.read
  refine offers_ahead.bind (fun start ls hls => offers_name.bind (fun name ms hms =>
    offers_expect.bind (fun _ ns hns => Ascription.offers_read?.bind (fun ascription as has => ?_)
    ?_) ?_) ?_) Nowhere.elim
  · subst hls hms hns
    cases has with
    | none => exact .fail nofun nofun
    | some h => exact .pure (by simpa using .mk h)
  · rintro _ as ⟨a, rfl, h⟩
    subst hls hms hns
    exact ⟨⟨name, a⟩, [], filler_nil, by simpa using .mk h⟩
  · rintro _ _ rfl
    subst hls hms
    exact ⟨_, [.token .numberType], by simp, .mk Ascription.written_number⟩
  · rintro _ _ ⟨rfl, rfl⟩
    subst hls
    exact ⟨_, [.token .asWord, .token .numberType], by simp, .mk Ascription.written_number⟩

theorem Parameter.open_written : Open Parameter.Written [] :=
  ⟨_, [.word "x", .token .asWord, .token .numberType], by simp, .mk Ascription.written_number⟩

theorem Function.offers_returns :
    Offers book (optional (accept book .thatReturn) (BaseType.read book))
      (Perhaps BaseType.Returned) (Given BaseType.Returned) := by
  refine offers_optional offers_sign (fun ls hls => ?_) fun ls hls => ?_
  · subst hls
    refine BaseType.offers_read.mono (fun base ms hms => ?_) fun base ms hms => ?_
    · subst hms
      exact .mk
    · subst hms
      exact .mk
  · subst hls
    exact ⟨.number, [.token .numberType], by simp, .mk⟩

theorem Function.offers_read {body : Reader (List Statement)}
    (hb : Offers book body Statement.WrittenAll Statement.WrittenAll) :
    Offers book (Function.read book body) (fun f ls => f.Written (.token .defineFunction :: ls))
      fun f ls => f.Written (.token .defineFunction :: ls) := by
  unfold Function.read
  refine offers_name.bind (fun name ls hls =>
    (offers_listed Parameter.offers_read Parameter.open_written).bind (fun parameters ps hps =>
    offers_returns.bind (fun returns rs hrs => offers_expect.bind (fun _ ms hms =>
    hb.bind (fun body ss hss => offers_closeBlock.bind (fun _ ns hns => .pure ?_) ?_) ?_) ?_) ?_)
    ?_) ?_
  -- First the whole function, then what makes up for a part that is missing, the last one first.
  · subst hls hms hns
    simpa using Function.Written.mk hps hrs hss
  · rintro _ _ rfl
    subst hls hms
    exact ⟨⟨name, parameters.getD [], returns, body⟩, [], filler_nil, by
      simpa using Function.Written.mk hps hrs hss⟩
  · intro body ss hss
    subst hls hms
    exact ⟨⟨name, parameters.getD [], returns, body⟩, [.token .endOfFunction], by simp, by
      simpa using Function.Written.mk hps hrs hss⟩
  · rintro _ _ rfl
    subst hls
    exact ⟨⟨name, parameters.getD [], returns, []⟩, [.token .endOfFunction], by simp, by
      simpa using Function.Written.mk hps hrs .nil⟩
  · rintro _ rs ⟨base, rfl, h⟩
    subst hls
    exact ⟨⟨name, parameters.getD [], some base, []⟩, [.token .doWord, .token .endOfFunction],
      by simp, by simpa using Function.Written.mk hps (.some h) .nil⟩
  · intro parameters ps hps
    subst hls
    exact ⟨⟨name, parameters.getD [], none, []⟩, [.token .doWord, .token .endOfFunction],
      by simp, by simpa using Function.Written.mk hps .none .nil⟩
  · rintro _ _ ⟨rfl, rfl⟩
    exact ⟨_, [.token .doWord, .token .endOfFunction], by simp, .mk .none .none .nil⟩

namespace Program

/-- Items up to the end of the text, which is read as a lexeme of its own. -/
def WrittenToEnd (items : List Item) (ls : List Lexeme) : Prop :=
  ∃ ms, ls = ms ++ [.token .endOfInput] ∧ Item.WrittenAll items ms

theorem WrittenToEnd.nil : WrittenToEnd [] [.token .endOfInput] := ⟨[], rfl, .nil⟩

theorem WrittenToEnd.cons {i : Item} {items : List Item} {ls ms : List Lexeme} (h : i.Written ls)
    (hs : WrittenToEnd items ms) : WrittenToEnd (i :: items) (ls ++ ms) := by
  obtain ⟨ns, rfl, hs⟩ := hs
  exact ⟨ls ++ ns, (List.append_assoc ..).symm, .cons h hs⟩

theorem open_function :
    Open (fun f ls => Function.Written f (.token .defineFunction :: ls)) [] :=
  ⟨⟨"x", [], none, []⟩, [.word "x", .token .doWord, .token .endOfFunction], by simp,
    .mk .none .none .nil⟩

theorem open_opening (opening : Opening) : Open WrittenToEnd [.token opening.token] := by
  have hitem {i : Item} {ls : List Lexeme} (hfiller : Filler ls)
      (h : i.Written (.token opening.token :: ls)) : Open WrittenToEnd [.token opening.token] :=
    ⟨[i], ls ++ [.token .endOfInput], by simp [hfiller], by simpa using WrittenToEnd.cons h .nil⟩
  cases opening with
  | finish => exact ⟨[], [], filler_nil, .nil⟩
  | function =>
    obtain ⟨f, more, hmore, h⟩ := open_function
    exact hitem hmore (.function h)
  | statement opening =>
    obtain ⟨s, more, hmore, h⟩ := Statement.open_statement opening
    exact hitem hmore (.statement h)

theorem offers_item {α : Type} {R : Reader α} {rest : Reader (List Item)} {item : α → Item}
    {opening : Token}
    (hR : Offers book R (fun a ls => (item a).Written (.token opening :: ls))
      fun a ls => (item a).Written (.token opening :: ls))
    (hrest : Offers book rest WrittenToEnd WrittenToEnd) :
    Offers book (do let a ← R; return item a :: (← rest))
      (fun items ls => WrittenToEnd items (.token opening :: ls))
      fun items ls => WrittenToEnd items (.token opening :: ls) := by
  refine hR.bind (fun a ls hls => hrest.bind (fun items ms hms => .pure ?_) ?_) ?_
  · simpa using WrittenToEnd.cons hls hms
  · intro items ms hms
    exact ⟨item a :: items, [], filler_nil, by simpa using WrittenToEnd.cons hls hms⟩
  · intro a ls hls
    exact ⟨[item a], [.token .endOfInput], by simp, by simpa using WrittenToEnd.cons hls .nil⟩

theorem offers_readItems (limit : Nat) :
    Offers book (readItems book limit) WrittenToEnd WrittenToEnd := by
  induction limit with
  | zero => exact offers_ahead.bind (fun _ _ _ => .fail nofun nofun) Nowhere.elim
  | succ limit ih =>
    unfold readItems
    have hb : Offers book (Statement.readBlock book limit) Statement.WrittenAll
        Statement.WrittenAll := Statement.offers_readBlock limit
    refine offers_take.bind (fun opening ls hls => ?_) ?_
    · obtain ⟨-, rfl⟩ := hls
      cases opening with
      | finish => exact .pure .nil
      | function =>
        have hf := (Function.offers_read hb).mono (fun _ _ h => Item.Written.function h)
          fun _ _ h => Item.Written.function h
        exact offers_item hf ih
      | statement opening =>
        have hs := (Statement.offers_read hb opening).mono (fun _ _ h => Item.Written.statement h)
          fun _ _ h => Item.Written.statement h
        exact offers_item hs ih
    · rintro opening _ ⟨-, rfl⟩
      exact open_opening opening

end Program

theorem exists_read_of_parseWith {source : String} {p : Program}
    (h : parseWith book source = .ok p) :
    ∃ c, Program.read book (.start source.toList) = .ok p c := by
  rw [parseWith] at h
  split at h
  · next q c hq =>
    cases h
    exact ⟨c, hq⟩
  · cases h

/-- A program that was parsed has its form in lexemes, and those make up the source. -/
theorem written_of_parseWith {source : String} {p : Program}
    (h : parseWith book source = .ok p) :
    ∃ ls rest, p.Written ls ∧ Reads book ls source.toList rest ∧ skipBlank rest = [] := by
  obtain ⟨c, hq⟩ := exists_read_of_parseWith h
  rw [Program.read, bind_eq_ok] at hq
  obtain ⟨_, _, hc, hq⟩ := hq
  obtain ⟨items, d, hi, hq⟩ := bind_eq_ok.mp hq
  cases hq
  cases hc
  obtain ⟨ls, ⟨ms, rfl, hw⟩, hr, -⟩ := (Program.offers_readItems _).ok hi
  obtain ⟨mid, hm, he⟩ := hr.of_append
  cases he with
  | cons hn _ =>
    cases hn with
    | token ha => exact ⟨ms, mid, hw, hm, (Phrasebook.after?_endOfInput.mp ha).1⟩

end Wordy
