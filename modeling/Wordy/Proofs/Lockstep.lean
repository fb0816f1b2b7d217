import Mathlib
import Wordy.Parse
import Wordy.Proofs.Offers

/-! Two runs of the readers of one phrasebook. A lockstep relates the cursors of the two runs,
places of the two texts, and failures. Where what comes next is found in both runs or in neither,
all that is read keeps the runs in step. The limits have no part in it: the runs may have different
ones, and one that is too low is the only way for one run to leave the other. -/

namespace Wordy

open Text Reader

structure Lockstep (book : Phrasebook) where
  cursors : Cursor → Cursor → Prop
  places : List Char → List Char → Prop
  failures : Failure → Failure → Prop
  ahead : ∀ {c d}, cursors c d → places c.ahead d.ahead
  missed : ∀ {c d} (tokens : List Token), cursors c d →
    cursors ⟨c.rest, c.tried ++ tokens⟩ ⟨d.rest, d.tried ++ tokens⟩
  after? : ∀ {c d} (t : Token), cursors c d →
    Option.Rel (fun rest rest' => cursors ⟨rest, []⟩ ⟨rest', []⟩) (book.after? t c.ahead)
      (book.after? t d.ahead)
  ahead_eq_nil : ∀ {c d}, cursors c d → (c.ahead = [] ↔ d.ahead = [])
  word : ∀ {c d}, cursors c d → Text.word c.ahead = Text.word d.ahead
  afterWord : ∀ {c d}, cursors c d →
    cursors ⟨Text.afterWord c.ahead, []⟩ ⟨Text.afterWord d.ahead, []⟩
  quotation : ∀ {c d}, cursors c d →
    Option.Rel (fun x y => x.1 = y.1 ∧ cursors ⟨skipBlank x.2, []⟩ ⟨skipBlank y.2, []⟩)
      (quoted? c.ahead) (quoted? d.ahead)
  fail : ∀ {rest rest'} (fault : Fault), places rest rest' → failures ⟨fault, rest⟩ ⟨fault, rest'⟩
  unexpected : ∀ {c d}, cursors c d →
    failures ⟨.unexpected (book.forms c.tried), c.ahead⟩ ⟨.unexpected (book.forms d.tried), d.ahead⟩

namespace Lockstep

variable {book : Phrasebook} (L : Lockstep book) {α β : Type}

/-- What the two runs come to: one value, two failures that belong together, or a limit that was too
low in one of them. -/
inductive Together :
    EStateM.Result Failure Cursor α → EStateM.Result Failure Cursor α → Prop
  | ok {a : α} {c d : Cursor} (h : L.cursors c d) : Together (.ok a c) (.ok a d)
  | error {e e' : Failure} {c d : Cursor} (he : L.failures e e') (h : L.cursors c d) :
      Together (.error e c) (.error e' d)
  | stalledLeft {e : Failure} {s : Cursor} {y : EStateM.Result Failure Cursor α}
      (h : e.fault = .stalled) : Together (.error e s) y
  | stalledRight {x : EStateM.Result Failure Cursor α} {e : Failure} {s : Cursor}
      (h : e.fault = .stalled) : Together x (.error e s)

def Agrees (R R' : Reader α) : Prop := ∀ ⦃c d⦄, L.cursors c d → L.Together (R c) (R' d)

variable {L} {R R' : Reader α} {f f' : α → Reader β}

theorem Agrees.bind (hR : L.Agrees R R') (hf : ∀ a, L.Agrees (f a) (f' a)) :
    L.Agrees (R >>= f) (R' >>= f') := by
  intro c d h
  have ht := hR h
  generalize hx : R c = x at ht
  generalize hy : R' d = y at ht
  cases ht with
  | ok h =>
    rw [bind_of_ok hx, bind_of_ok hy]
    exact hf _ h
  | error he h =>
    rw [bind_eq_error.mpr (.inl hx), bind_eq_error.mpr (.inl hy)]
    exact .error he h
  | stalledLeft h =>
    rw [bind_eq_error.mpr (.inl hx)]
    exact .stalledLeft h
  | stalledRight h =>
    rw [bind_eq_error.mpr (.inl hy)]
    exact .stalledRight h

theorem Agrees.pure {a : α} : L.Agrees (pure a) (pure a) := fun _ _ h => .ok h

theorem Agrees.fail {fault : Fault} {rest rest' : List Char} (h : L.places rest rest') :
    L.Agrees (Reader.fail fault rest : Reader α) (Reader.fail fault rest') :=
  fun _ _ hc => .error (L.fail fault h) hc

theorem Agrees.get {f f' : Cursor → Reader β} (hf : ∀ c d, L.Agrees (f c) (f' d)) :
    L.Agrees (get >>= f) (get >>= f') :=
  fun c d h => hf c d h

theorem Agrees.of_ahead {f f' : List Char → Reader β}
    (hf : ∀ rest rest', L.places rest rest' → L.Agrees (f rest) (f' rest')) :
    L.Agrees (Reader.ahead >>= f) (Reader.ahead >>= f') :=
  fun c d h => hf c.ahead d.ahead (L.ahead h) h

theorem Agrees.stalled_left : L.Agrees (do Reader.fail .stalled (← Reader.ahead)) R' :=
  fun _ _ _ => .stalledLeft rfl

theorem Agrees.stalled_right : L.Agrees R (do Reader.fail .stalled (← Reader.ahead)) :=
  fun _ _ _ => .stalledRight rfl

section

variable {token : α → Token} {values : List α}

theorem first_together (token : α → Token) (values : List α) {c d : Cursor} (h : L.cursors c d) :
    (book.first c.ahead token values).1 = (book.first d.ahead token values).1 ∧
      Option.Rel (fun x y => x.1 = y.1 ∧ L.cursors ⟨x.2, []⟩ ⟨y.2, []⟩)
        (book.first c.ahead token values).2 (book.first d.ahead token values).2 := by
  induction values with
  | nil => exact ⟨rfl, .none⟩
  | cons v values ih =>
    have ha := L.after? (token v) h
    simp only [Phrasebook.first]
    generalize book.after? (token v) c.ahead = x at ha
    generalize book.after? (token v) d.ahead = y at ha
    cases ha with
    | some hr => exact ⟨rfl, .some ⟨rfl, hr⟩⟩
    | none => exact ⟨by rw [ih.1], ih.2⟩

theorem agrees_take? : L.Agrees (take? book token values) (take? book token values) := by
  intro c d h
  obtain ⟨-, hf⟩ := first_together token values h
  cases hx : (book.first c.ahead token values).2 with
  | some x =>
    rw [hx] at hf
    cases hy : (book.first d.ahead token values).2 with
    | none => rw [hy] at hf; cases hf
    | some y =>
      rw [hy] at hf
      cases hf with
      | some hr =>
        rw [take?_eq_of_some hx, take?_eq_of_some hy, hr.1]
        exact .ok hr.2
  | none =>
    rw [hx] at hf
    cases hy : (book.first d.ahead token values).2 with
    | some y => rw [hy] at hf; cases hf
    | none =>
      rw [take?_eq_of_none (Phrasebook.after?_eq_none_of_first hx),
        take?_eq_of_none (Phrasebook.after?_eq_none_of_first hy)]
      exact .ok (L.missed _ h)

theorem agrees_take : L.Agrees (take book token values) (take book token values) := by
  refine agrees_take?.bind fun found => ?_
  cases found with
  | some v => exact .pure
  | none => exact fun c d h => .error (L.unexpected h) h

end

variable {t : Token}

theorem agrees_accept : L.Agrees (accept book t) (accept book t) :=
  agrees_take?.bind fun _ => .pure

theorem agrees_expect : L.Agrees (expect book t) (expect book t) :=
  agrees_take.bind fun _ => .pure

theorem agrees_name : L.Agrees (name book) (name book) := by
  intro c d h
  change L.Together ((Reader.ahead >>= _) c) ((Reader.ahead >>= _) d)
  rw [bind_of_ok (show Reader.ahead c = .ok c.ahead c from rfl),
    bind_of_ok (show Reader.ahead d = .ok d.ahead d from rfl), L.word h]
  by_cases hnil : c.ahead = []
  · rw [if_pos hnil, if_pos ((L.ahead_eq_nil h).mp hnil)]
    exact .error (L.fail _ (L.ahead h)) h
  · rw [if_neg hnil, if_neg fun hd => hnil ((L.ahead_eq_nil h).mpr hd)]
    by_cases hr : book.isReserved (Text.word d.ahead) = true
    · rw [if_pos hr, if_pos hr]
      exact .error (L.fail _ (L.ahead h)) h
    · rw [if_neg hr, if_neg hr]
      exact .ok (L.afterWord h)

theorem agrees_quotation? : L.Agrees quotation? quotation? := by
  intro c d h
  have hq := L.quotation h
  cases hx : quoted? c.ahead with
  | some x =>
    rw [hx] at hq
    cases hy : quoted? d.ahead with
    | none => rw [hy] at hq; cases hq
    | some y =>
      rw [hy] at hq
      cases hq with
      | some hr =>
        rw [quotation?_eq_of_some hx, quotation?_eq_of_some hy, hr.1]
        exact .ok hr.2
  | none =>
    rw [hx] at hq
    cases hy : quoted? d.ahead with
    | some y => rw [hy] at hq; cases hq
    | none =>
      rw [quotation?_eq_of_none hx, quotation?_eq_of_none hy]
      exact .ok h

theorem agrees_refuseBlock :
    L.Agrees (refuseBlock book : Reader α) (refuseBlock book) := by
  intro c d h
  obtain ⟨hm, hf⟩ := first_together id [Token.defineFunction] h
  have hpeek (c : Cursor) : peek book id [.defineFunction] c =
      .ok ((book.first c.ahead id [.defineFunction]).2.map (·.1))
        ⟨c.rest, c.tried ++ (book.first c.ahead id [.defineFunction]).1⟩ := rfl
  have hunexpected (c : Cursor) : Reader.unexpected book c =
      .ok ⟨.unexpected (book.forms c.tried), c.ahead⟩ c := rfl
  have hpeeked := L.missed (book.first d.ahead id [.defineFunction]).1 h
  rw [refuseBlock, bind_of_ok (hunexpected c), bind_of_ok (hpeek c), bind_of_ok (hunexpected d),
    bind_of_ok (hpeek d), hm]
  generalize (book.first c.ahead id [.defineFunction]).2 = x at hf
  generalize (book.first d.ahead id [.defineFunction]).2 = y at hf
  cases hf with
  | some => exact .error (L.fail _ (L.ahead hpeeked)) hpeeked
  | none => exact .error (L.unexpected h) hpeeked

theorem agrees_closeBlock : L.Agrees (closeBlock book t) (closeBlock book t) := by
  rw [closeBlock_eq]
  refine agrees_accept.bind fun found => ?_
  cases found with
  | true => exact .pure
  | false => exact agrees_refuseBlock

variable {sign : Reader Bool} {part part' item item' : Reader α}

theorem agrees_optional (hs : L.Agrees sign sign) (hp : L.Agrees part part') :
    L.Agrees (optional sign part) (optional sign part') := by
  refine hs.bind fun found => ?_
  cases found with
  | true => exact hp.bind fun _ => .pure
  | false => exact .pure

theorem agrees_others (hi : L.Agrees item item') (n m : Nat) :
    L.Agrees (others (accept book t) item n) (others (accept book t) item' m) := by
  induction n generalizing m with
  | zero => exact .stalled_left
  | succ n ih =>
    cases m with
    | zero => exact .stalled_right
    | succ m =>
      refine agrees_accept.bind fun found => ?_
      cases found with
      | true => exact hi.bind fun _ => (ih m).bind fun _ => .pure
      | false => exact .pure

theorem agrees_separated (hi : L.Agrees item item') :
    L.Agrees (separated (accept book t) item) (separated (accept book t) item') :=
  hi.bind fun _ => .get fun _ _ => (agrees_others hi _ _).bind fun _ => .pure

end Lockstep

open Lockstep

variable {book : Phrasebook} {L : Lockstep book}

namespace Atom

theorem agrees_readWord : L.Agrees (readWord book) (readWord book) := by
  refine .of_ahead fun start start' hs => agrees_name.bind fun w => ?_
  cases ofWord? w with
  | some a => exact .pure
  | none => exact .fail hs

theorem agrees_read : L.Agrees (read book) (read book) := by
  refine agrees_take?.bind fun value => ?_
  cases value with
  | some value => exact .pure
  | none =>
    refine agrees_quotation?.bind fun contents => ?_
    cases contents with
    | some contents => exact .pure
    | none => exact agrees_readWord

end Atom

theorem Link.agrees_read : L.Agrees (Link.read book) (Link.read book) := by
  refine agrees_accept.bind fun found => ?_
  cases found with
  | true => exact .pure
  | false =>
    refine Atom.agrees_read.bind fun left => agrees_take?.bind fun operator => ?_
    cases operator <;> exact .pure

namespace Expression

theorem agrees_readChain {start start' : List Char} (hs : L.places start start') (limit : Nat) :
    L.Agrees (readChain book start limit) (readChain book start' limit) := by
  induction limit with
  | zero =>
    refine Link.agrees_read.bind fun next => ?_
    cases next with
    | inl link => exact .fail hs
    | inr last => exact .pure
  | succ limit ih =>
    refine Link.agrees_read.bind fun next => ?_
    cases next with
    | inl link => exact ih.bind fun _ => .pure
    | inr last => exact .pure

theorem agrees_read : L.Agrees (read book) (read book) :=
  .of_ahead fun _ _ hs => (agrees_readChain hs maxOperators).bind fun _ => .pure

end Expression

theorem BaseType.agrees_read : L.Agrees (BaseType.read book) (BaseType.read book) := agrees_take

theorem Ascription.agrees_read? : L.Agrees (Ascription.read? book) (Ascription.read? book) := by
  refine agrees_accept.bind fun found => ?_
  cases found with
  | true => exact BaseType.agrees_read.bind fun _ => .pure
  | false => exact agrees_take?.bind fun _ => .pure

namespace Statement

variable {body body' : Reader (List Statement)}

theorem agrees_readDeclaration : L.Agrees (readDeclaration book) (readDeclaration book) := by
  refine .of_ahead fun start start' hs => agrees_name.bind fun name => agrees_expect.bind fun _ =>
    Ascription.agrees_read?.bind fun ascription => ?_
  refine (agrees_optional (agrees_take?.bind fun _ => .pure) Expression.agrees_read).bind
    fun value => ?_
  by_cases h : (ascription.isNone && value.isNone) = true
  · rw [if_pos h, if_pos h]
    exact .fail hs
  · rw [if_neg h, if_neg h]
    exact .pure

theorem agrees_readChange {kind : Change} :
    L.Agrees (readChange book kind) (readChange book kind) :=
  agrees_name.bind fun _ => agrees_expect.bind fun _ => Expression.agrees_read.bind fun _ => .pure

theorem agrees_readBranch (hb : L.Agrees body body') :
    L.Agrees (readBranch book body) (readBranch book body') :=
  Expression.agrees_read.bind fun _ => agrees_expect.bind fun _ => hb.bind fun _ => .pure

theorem agrees_readConditional (hb : L.Agrees body body') :
    L.Agrees (readConditional book body) (readConditional book body') :=
  (agrees_separated (agrees_readBranch hb)).bind fun _ =>
    (agrees_optional agrees_accept (agrees_expect.bind fun _ => hb)).bind fun _ =>
      agrees_closeBlock.bind fun _ => .pure

theorem agrees_readWhileLoop (hb : L.Agrees body body') :
    L.Agrees (readWhileLoop book body) (readWhileLoop book body') :=
  (agrees_readBranch hb).bind fun _ => agrees_closeBlock.bind fun _ => .pure

theorem agrees_readForLoop (hb : L.Agrees body body') :
    L.Agrees (readForLoop book body) (readForLoop book body') :=
  agrees_name.bind fun _ => agrees_expect.bind fun _ => Expression.agrees_read.bind fun _ =>
    agrees_expect.bind fun _ => Expression.agrees_read.bind fun _ => agrees_expect.bind fun _ =>
      hb.bind fun _ => agrees_closeBlock.bind fun _ => .pure

theorem agrees_readCall : L.Agrees (readCall book) (readCall book) :=
  agrees_name.bind fun _ =>
    (agrees_optional agrees_accept (agrees_separated Expression.agrees_read)).bind fun _ =>
      (agrees_optional agrees_accept agrees_name).bind fun _ => .pure

theorem agrees_read (hb : L.Agrees body body') (opening : Opening) :
    L.Agrees (read book body opening) (read book body' opening) := by
  cases opening with
  | declare => exact agrees_readDeclaration
  | change kind => exact agrees_readChange
  | print => exact Expression.agrees_read.bind fun _ => .pure
  | conditional => exact agrees_readConditional hb
  | whileLoop => exact agrees_readWhileLoop hb
  | forLoop => exact agrees_readForLoop hb
  | call => exact agrees_readCall
  | giveBack => exact Expression.agrees_read.bind fun _ => .pure

theorem agrees_readBlock (n m : Nat) : L.Agrees (readBlock book n) (readBlock book m) := by
  induction n generalizing m with
  | zero => exact .stalled_left
  | succ n ih =>
    cases m with
    | zero => exact .stalled_right
    | succ m =>
      refine agrees_take?.bind fun opening => ?_
      cases opening with
      | none => exact .pure
      | some opening => exact (agrees_read (ih m) opening).bind fun _ => (ih m).bind fun _ => .pure

end Statement

theorem Parameter.agrees_read {function : String} :
    L.Agrees (Parameter.read book function) (Parameter.read book function) := by
  refine .of_ahead fun start start' hs => agrees_name.bind fun _ => agrees_expect.bind fun _ =>
    Ascription.agrees_read?.bind fun ascription => ?_
  cases ascription with
  | some ascription => exact .pure
  | none => exact .fail hs

theorem Function.agrees_read {body body' : Reader (List Statement)} (hb : L.Agrees body body') :
    L.Agrees (Function.read book body) (Function.read book body') :=
  agrees_name.bind fun _ =>
    (agrees_optional agrees_accept (agrees_separated Parameter.agrees_read)).bind fun _ =>
      (agrees_optional agrees_accept BaseType.agrees_read).bind fun _ => agrees_expect.bind fun _ =>
        hb.bind fun _ => agrees_closeBlock.bind fun _ => .pure

namespace Program

theorem agrees_readItems (n m : Nat) : L.Agrees (readItems book n) (readItems book m) := by
  induction n generalizing m with
  | zero => exact .stalled_left
  | succ n ih =>
    cases m with
    | zero => exact .stalled_right
    | succ m =>
      have hb : L.Agrees (Statement.readBlock book n) (Statement.readBlock book m) :=
        Statement.agrees_readBlock n m
      refine agrees_take.bind fun opening => ?_
      cases opening with
      | finish => exact .pure
      | function => exact (Function.agrees_read hb).bind fun _ => (ih m).bind fun _ => .pure
      | statement opening =>
        exact (Statement.agrees_read hb opening).bind fun _ => (ih m).bind fun _ => .pure

theorem agrees_read : L.Agrees (read book) (read book) :=
  .get fun _ _ => (agrees_readItems _ _).bind fun _ => .pure

end Program

end Wordy
