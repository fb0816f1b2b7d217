import Mathlib
import Wordy.Program.Equality
import Wordy.Proofs.ScriptExpressions

/-! What a script tells of its program: everything but the types. The form of a statement shows in
its first pieces, and inside it each expression and each block ends where it can be told to. So two
plain programs with one script differ in their types at most. -/

namespace Wordy

open Script

/-! ### Programs without their types -/

mutual

def Statement.untyped : Statement → Statement
  | .declare name _ value => .declare name none value
  | .conditional branches none => .conditional (Branch.untypedAll branches) none
  | .conditional branches (some body) =>
    .conditional (Branch.untypedAll branches) (some (Statement.untypedAll body))
  | .whileLoop condition body => .whileLoop condition (Statement.untypedAll body)
  | .forLoop iterator lower upper body =>
    .forLoop iterator lower upper (Statement.untypedAll body)
  | .change change target value => .change change target value
  | .print value => .print value
  | .call function arguments result => .call function arguments result
  | .giveBack value => .giveBack value

def Statement.untypedAll : List Statement → List Statement
  | [] => []
  | statement :: statements => statement.untyped :: Statement.untypedAll statements

def Branch.untypedAll : List Branch → List Branch
  | [] => []
  | ⟨condition, body⟩ :: branches =>
    ⟨condition, Statement.untypedAll body⟩ :: Branch.untypedAll branches

end

/-- A parameter cannot do without a type, so that each one is given the same. -/
def Parameter.untyped (p : Parameter) : Parameter := ⟨p.name, ⟨false, .number⟩⟩

def Function.untyped (f : Function) : Function :=
  ⟨f.name, f.parameters.map Parameter.untyped, none, Statement.untypedAll f.body⟩

def Item.untyped : Item → Item
  | function f => function f.untyped
  | statement s => statement s.untyped

def Program.untyped (p : Program) : Program := ⟨p.items.map Item.untyped⟩

mutual

theorem Statement.javascript_untyped : (s : Statement) → s.untyped.javascript = s.javascript
  | .declare _ _ none | .declare _ _ (some _) | .change .. | .print _ | .call _ _ none
  | .call _ _ (some _) | .giveBack _ => rfl
  | .conditional branches none => by
    simp only [Statement.untyped, Statement.javascript, Branch.javascript_untyped branches]
  | .conditional branches (some body) => by
    simp only [Statement.untyped, Statement.javascript, Branch.javascript_untyped branches,
      Statement.javascriptAll_untyped body]
  | .whileLoop condition body => by
    simp only [Statement.untyped, Statement.javascript, Statement.javascriptAll_untyped body]
  | .forLoop iterator lower upper body => by
    simp only [Statement.untyped, Statement.javascript, Statement.javascriptAll_untyped body]

theorem Statement.javascriptAll_untyped :
    (ss : List Statement) →
      Statement.javascriptAll (Statement.untypedAll ss) = Statement.javascriptAll ss
  | [] => rfl
  | s :: ss => by
    simp only [Statement.untypedAll, Statement.javascriptAll, Statement.javascript_untyped s,
      Statement.javascriptAll_untyped ss]

theorem Branch.javascript_untyped :
    (bs : List Branch) → {opening : String} →
      Branch.javascript opening (Branch.untypedAll bs) = Branch.javascript opening bs
  | [], _ => rfl
  | ⟨condition, body⟩ :: bs, _ => by
    simp only [Branch.untypedAll, Branch.javascript, Statement.javascriptAll_untyped body,
      Branch.javascript_untyped bs]

end

/-- The types have no part in the script. -/
theorem Program.javascript_untyped (p : Program) : p.untyped.javascript = p.javascript := by
  have hitem (item : Item) : item.untyped.javascript = item.javascript := by
    cases item with
    | function f =>
      simp [Item.untyped, Item.javascript, Function.untyped, Function.javascript,
        Parameter.untyped, Function.comp_def, Statement.javascriptAll_untyped]
    | statement s => exact s.javascript_untyped
  simp [javascript, untyped, List.flatMap_map, hitem]

/-! ### Statements from their pieces -/

inductive Form
  | declaration | change (kind : Change) | print | conditional | whileLoop | forLoop
  | call (keepsResult : Bool) | giveBack | function
deriving DecidableEq, Repr

def Statement.form : Statement → Form
  | .declare .. => .declaration
  | .change kind _ _ => .change kind
  | .print _ => .print
  | .conditional .. => .conditional
  | .whileLoop .. => .whileLoop
  | .forLoop .. => .forLoop
  | .call _ _ result => .call result.isSome
  | .giveBack _ => .giveBack

namespace Script

/-- The form of what starts with the word, which opens no form of its own, and the pieces. -/
def formAfter? (w : List Char) : List Piece → Option Form
  | .mark '(' :: _ => some (.call false)
  -- A value that is assigned is never followed by a parenthesis.
  | .mark '=' :: .word _ :: .mark '(' :: _ => some (.call true)
  | .mark '=' :: _ => some (.change .assign)
  | .mark '+' :: _ => some (.change .increase)
  | .word v :: _ =>
    if v = ['-'] then some (.change .decrease)
    else if w = "var".toList then some .declaration
    else some .function
  | _ => none

def form? : List Piece → Option Form
  | .word w :: rest =>
    if w = "VM.print".toList then some .print
    else if w = "if".toList then some .conditional
    else if w = "while".toList then some .whileLoop
    else if w = "for".toList then some .forLoop
    else if w = "return".toList then some .giveBack
    else formAfter? w rest
  | _ => none

end Script

theorem PlainName.ne_of_mem {name : String} (h : PlainName name) {w : List Char} {c : Char}
    (hc : c ∈ w) (hcc : ¬(c.isAlphanum = true ∨ c = '_' ∨ c = '-')) : name.toList ≠ w := by
  obtain ⟨d, more, he, hd, hmore⟩ := h.isVariable
  rintro rfl
  rw [he, List.mem_cons] at hc
  rcases hc with rfl | hc
  · exact hcc (.inl (by simp [Char.isAlphanum, hd]))
  · exact hcc (hmore c hc)

theorem PlainName.ne_hyphen {name : String} (h : PlainName name) : name.toList ≠ ['-'] := by
  obtain ⟨d, more, he, hd, -⟩ := h.isVariable
  rw [he]
  rintro he
  rw [(List.cons.inj he).1] at hd
  exact absurd hd (by decide)

/-- A name is none of the words that open a form: it has no point and is not reserved. -/
theorem PlainName.form?_word {name : String} (h : PlainName name) (ps : List Piece) :
    form? (.word name.toList :: ps) = formAfter? name.toList ps := by
  have hpoint : '.' ∈ "VM.print".toList := by decide
  rw [form?, if_neg (h.ne_of_mem hpoint (by decide)), if_neg (h.ne_of_isReserved (by decide)),
    if_neg (h.ne_of_isReserved (by decide)), if_neg (h.ne_of_isReserved (by decide)),
    if_neg (h.ne_of_isReserved (by decide))]

theorem Statement.Plain.form?_pieces {s : Statement} (h : s.Plain) (ps : List Piece) :
    form? (s.pieces ++ ps) = some s.form := by
  cases s with
  | declare name _ value =>
    have hname : name.toList ≠ ['-'] := PlainName.ne_hyphen h.1
    cases value <;> simp [pieces, form?, formAfter?, form, hname]
  | change kind target value =>
    rw [pieces, List.cons_append, PlainName.form?_word h.1]
    cases kind with
    | assign =>
      have hstop : Stop (.mark ';' :: .mark '\n' :: ps) := stop_semicolon
      simp only [Change.pieces, List.cons_append, List.nil_append, List.append_assoc]
      rw [formAfter?]
      · rfl
      · exact value.pieces_ne_call hstop
    | increase => rfl
    | decrease => rfl
  | print value => simp [pieces, form?, form]
  | conditional branches otherwise =>
    -- Without a branch there would be no opening to see.
    have hne : branches ≠ [] := by cases otherwise <;> exact h.1
    have hif (qs : List Piece) : form? (.word "if".toList :: qs) = some .conditional := by
      simp [form?]
    cases branches with
    | nil => exact absurd rfl hne
    | cons b bs =>
      obtain ⟨condition, body⟩ := b
      cases otherwise with
      | none => exact hif _
      | some body => exact hif _
  | whileLoop condition body => simp [pieces, form?, form]
  | forLoop iterator lower upper body => simp [pieces, form?, form]
  | call function arguments result =>
    cases result with
    | none =>
      rw [pieces, List.cons_append, PlainName.form?_word h.1]
      rfl
    | some result =>
      rw [pieces, List.cons_append, PlainName.form?_word (h.2.2 result rfl)]
      rfl
  | giveBack value => simp [pieces, form?, form]

theorem Statement.Plain.form_eq {s t : Statement} (hs : s.Plain) (ht : t.Plain) {ps qs : List Piece}
    (h : s.pieces ++ ps = t.pieces ++ qs) : s.form = t.form := by
  rw [← Option.some_inj, ← hs.form?_pieces ps, h, ht.form?_pieces]

theorem Statement.Plain.exists_pieces_eq_word {s : Statement} (h : s.Plain) :
    ∃ w ps, s.pieces = .word w :: ps := by
  cases hs : s.pieces with
  | nil => simpa [hs, form?] using h.form?_pieces []
  | cons p ps =>
    cases p with
    | word w => exact ⟨w, ps, rfl⟩
    | _ => simpa [hs, form?] using h.form?_pieces []

namespace Script

/-- A block ends here. -/
def Closes (ps : List Piece) : Prop := ps.head? = some (.mark '\x7d')

theorem closes {ps : List Piece} : Closes (.mark '\x7d' :: ps) := rfl

theorem Closes.ne_word {ps : List Piece} (h : Closes ps) (w : List Char) (qs : List Piece) :
    ps ≠ .word w :: qs := by
  rintro rfl
  simp [Closes] at h

/-- No branch goes on here. -/
structure BranchesEnd (ps : List Piece) : Prop where
  closes : Closes ps
  ne_elseIf : ∀ qs, ps ≠ elseIfPieces ++ qs

theorem BranchesEnd.ne_opening {opening ps : List Piece} (h : BranchesEnd ps)
    (ho : opening = ifPieces ∨ opening = elseIfPieces) (qs : List Piece) : ps ≠ opening ++ qs := by
  rcases ho with rfl | rfl
  · exact h.closes.ne_word _ _
  · exact h.ne_elseIf qs

theorem branchesEnd_line (ps : List Piece) : BranchesEnd (.mark '\x7d' :: .mark '\n' :: ps) :=
  ⟨Script.closes, by simp [elseIfPieces]⟩

theorem branchesEnd_otherwise (ps : List Piece) :
    BranchesEnd (.mark '\x7d' :: .word "else".toList :: .mark '\x7b' :: ps) :=
  ⟨Script.closes, by simp [elseIfPieces]⟩

end Script

section

variable {t : Statement} {value : Expression} {ps qs : List Piece}

theorem Statement.Plain.untyped_eq_declare {name : String} {ascription : Option Ascription}
    {value : Option Expression} (hs : (declare name ascription value).Plain) (ht : t.Plain)
    (h : (declare name ascription value).pieces ++ ps = t.pieces ++ qs) :
    (declare name ascription value).untyped = t.untyped ∧ ps = qs := by
  have hform := hs.form_eq ht h
  cases t with
  | declare name' ascription' value' =>
    cases value with
    | none =>
      cases value' with
      | none => simpa [pieces, untyped, String.toList_inj] using h
      | some value' => simp [pieces] at h
    | some value =>
      cases value' with
      | none => simp [pieces] at h
      | some value' =>
        simp only [pieces, List.cons_append, List.nil_append, List.append_assoc, List.cons.injEq,
          Piece.word.injEq, String.toList_inj, true_and] at h
        obtain ⟨rfl, hvalue⟩ := h
        obtain ⟨rfl, hend⟩ := Expression.telling_pieces (hs.2 _ rfl) (ht.2 _ rfl) stop_semicolon
          stop_semicolon hvalue
        simpa [untyped] using hend
  | _ => cases hform

theorem Statement.Plain.untyped_eq_change {kind : Change} {target : String}
    (hs : (Statement.change kind target value).Plain) (ht : t.Plain)
    (h : (Statement.change kind target value).pieces ++ ps = t.pieces ++ qs) :
    (Statement.change kind target value).untyped = t.untyped ∧ ps = qs := by
  have hform := hs.form_eq ht h
  cases t with
  | change kind' target' value' =>
    obtain rfl : kind = kind' := Form.change.inj hform
    simp only [pieces, List.cons_append, List.nil_append, List.append_assoc, List.cons.injEq,
      Piece.word.injEq, String.toList_inj, List.append_cancel_left_eq] at h
    obtain ⟨rfl, hvalue⟩ := h
    obtain ⟨rfl, hend⟩ := Expression.telling_pieces hs.2 ht.2 stop_semicolon stop_semicolon hvalue
    simpa [untyped] using hend
  | _ => cases hform

theorem Statement.Plain.untyped_eq_print (hs : (print value).Plain) (ht : t.Plain)
    (h : (print value).pieces ++ ps = t.pieces ++ qs) :
    (print value).untyped = t.untyped ∧ ps = qs := by
  have hform := hs.form_eq ht h
  cases t with
  | print value' =>
    simp only [pieces, List.cons_append, List.nil_append, List.append_assoc, List.cons.injEq,
      true_and] at h
    obtain ⟨rfl, hend⟩ := Expression.telling_pieces hs ht stop_parenthesis stop_parenthesis h
    simpa [untyped] using hend
  | _ => cases hform

theorem Statement.Plain.untyped_eq_giveBack (hs : (giveBack value).Plain) (ht : t.Plain)
    (h : (giveBack value).pieces ++ ps = t.pieces ++ qs) :
    (giveBack value).untyped = t.untyped ∧ ps = qs := by
  have hform := hs.form_eq ht h
  cases t with
  | giveBack value' =>
    simp only [pieces, List.cons_append, List.nil_append, List.append_assoc, List.cons.injEq,
      true_and] at h
    obtain ⟨rfl, hend⟩ := Expression.telling_pieces hs ht stop_semicolon stop_semicolon h
    simpa [untyped] using hend
  | _ => cases hform

theorem Statement.Plain.untyped_eq_call {function : String} {arguments : List Expression}
    {result : Option String} (hs : (call function arguments result).Plain) (ht : t.Plain)
    (h : (call function arguments result).pieces ++ ps = t.pieces ++ qs) :
    (call function arguments result).untyped = t.untyped ∧ ps = qs := by
  have hform := hs.form_eq ht h
  have harguments {arguments' : List Expression} {ps qs : List Piece}
      (ha : ∀ e ∈ arguments', e.Plain)
      (h : commaSeparated (arguments.map Expression.pieces) ++ .mark ')' :: ps =
        commaSeparated (arguments'.map Expression.pieces) ++ .mark ')' :: qs) :
      arguments = arguments' ∧ ps = qs :=
    Expression.telling_pieces.commaSeparated (fun e _ => e.pieces_ne_parenthesis) hs.2.1 ha h
  cases t with
  | call function' arguments' result' =>
    cases result with
    | none =>
      cases result' with
      | none =>
        simp only [pieces, List.cons_append, List.nil_append, List.append_assoc, List.cons.injEq,
          Piece.word.injEq, String.toList_inj, true_and] at h
        obtain ⟨rfl, hlist⟩ := h
        obtain ⟨rfl, hend⟩ := harguments ht.2.1 hlist
        simpa [untyped] using hend
      | some result' => cases hform
    | some result =>
      cases result' with
      | none => cases hform
      | some result' =>
        simp only [pieces, List.cons_append, List.nil_append, List.append_assoc, List.cons.injEq,
          Piece.word.injEq, String.toList_inj, true_and] at h
        obtain ⟨rfl, rfl, hlist⟩ := h
        obtain ⟨rfl, hend⟩ := harguments ht.2.1 hlist
        simpa [untyped] using hend
  | _ => cases hform

/-- Up to a brace that closes it, the pieces of the block tell all of it but its types. -/
def Statement.BlockTells (body : List Statement) : Prop :=
  ∀ ⦃body' : List Statement⦄, PlainAll body' → ∀ ⦃ps qs : List Piece⦄, Closes ps → Closes qs →
    piecesAll body ++ ps = piecesAll body' ++ qs → untypedAll body = untypedAll body' ∧ ps = qs

/-- So do the pieces of the branches, up to a brace behind which no other branch comes. -/
def Branch.AllTell (opening : List Piece) (branches : List Branch) : Prop :=
  ∀ ⦃branches' : List Branch⦄, PlainAll branches' → ∀ ⦃ps qs : List Piece⦄, BranchesEnd ps →
    BranchesEnd qs → pieces opening branches ++ ps = pieces opening branches' ++ qs →
      untypedAll branches = untypedAll branches' ∧ ps = qs

theorem Statement.Plain.untyped_eq_conditional {branches : List Branch}
    (hbranches : Branch.AllTell ifPieces branches) (hs : (conditional branches none).Plain)
    (ht : t.Plain)
    (h : (conditional branches none).pieces ++ ps = t.pieces ++ qs) :
    (conditional branches none).untyped = t.untyped ∧ ps = qs := by
  have hform := hs.form_eq ht h
  cases t with
  | conditional branches' otherwise' =>
    cases otherwise' with
    | none =>
      simp only [pieces, List.cons_append, List.nil_append, List.append_assoc] at h
      obtain ⟨hsame, hend⟩ := hbranches ht.2 (branchesEnd_line _) (branchesEnd_line _) h
      simpa [untyped, hsame] using hend
    | some body' =>
      -- Behind the branches one of the two goes on with a line break and the other with `else`.
      simp only [pieces, List.cons_append, List.nil_append, List.append_assoc] at h
      obtain ⟨-, hend⟩ := hbranches ht.2.1 (branchesEnd_line _) (branchesEnd_otherwise _) h
      simp at hend
  | _ => cases hform

theorem Statement.Plain.untyped_eq_conditionalOtherwise {branches : List Branch}
    {body : List Statement} (hbranches : Branch.AllTell ifPieces branches) (hbody : BlockTells body)
    (hs : (conditional branches (some body)).Plain) (ht : t.Plain)
    (h : (conditional branches (some body)).pieces ++ ps = t.pieces ++ qs) :
    (conditional branches (some body)).untyped = t.untyped ∧ ps = qs := by
  have hform := hs.form_eq ht h
  cases t with
  | conditional branches' otherwise' =>
    cases otherwise' with
    | none =>
      simp only [pieces, List.cons_append, List.nil_append, List.append_assoc] at h
      obtain ⟨-, hend⟩ := hbranches ht.2 (branchesEnd_otherwise _) (branchesEnd_line _) h
      simp at hend
    | some body' =>
      simp only [pieces, List.cons_append, List.nil_append, List.append_assoc] at h
      obtain ⟨hsame, hrest⟩ :=
        hbranches ht.2.1 (branchesEnd_otherwise _) (branchesEnd_otherwise _) h
      simp only [List.cons.injEq, true_and] at hrest
      obtain ⟨hsame', hend⟩ := hbody ht.2.2 closes closes hrest
      simpa [untyped, hsame, hsame'] using hend
  | _ => cases hform

theorem Statement.Plain.untyped_eq_whileLoop {condition : Expression} {body : List Statement}
    (hbody : BlockTells body) (hs : (whileLoop condition body).Plain) (ht : t.Plain)
    (h : (whileLoop condition body).pieces ++ ps = t.pieces ++ qs) :
    (whileLoop condition body).untyped = t.untyped ∧ ps = qs := by
  have hform := hs.form_eq ht h
  cases t with
  | whileLoop condition' body' =>
    simp only [pieces, List.cons_append, List.nil_append, List.append_assoc, List.cons.injEq,
      true_and] at h
    obtain ⟨rfl, hrest⟩ := Expression.telling_pieces hs.1 ht.1 stop_parenthesis stop_parenthesis h
    simp only [List.cons.injEq, true_and] at hrest
    obtain ⟨hsame, hend⟩ := hbody ht.2 closes closes hrest
    simpa [untyped, hsame] using hend
  | _ => cases hform

theorem Statement.Plain.untyped_eq_forLoop {iterator : String} {lower upper : Expression}
    {body : List Statement} (hbody : BlockTells body)
    (hs : (forLoop iterator lower upper body).Plain) (ht : t.Plain)
    (h : (forLoop iterator lower upper body).pieces ++ ps = t.pieces ++ qs) :
    (forLoop iterator lower upper body).untyped = t.untyped ∧ ps = qs := by
  have hform := hs.form_eq ht h
  cases t with
  | forLoop iterator' lower' upper' body' =>
    simp only [pieces, List.cons_append, List.nil_append, List.append_assoc, List.cons.injEq,
      Piece.word.injEq, String.toList_inj, true_and] at h
    obtain ⟨rfl, hlower⟩ := h
    obtain ⟨rfl, hupper⟩ := Expression.telling_pieces hs.2.1 ht.2.1 stop_semicolon
      stop_semicolon hlower
    simp only [List.cons.injEq, true_and] at hupper
    obtain ⟨rfl, hrest⟩ := Expression.telling_pieces hs.2.2.1 ht.2.2.1 stop_semicolon
      stop_semicolon hupper
    simp only [List.cons.injEq, true_and] at hrest
    obtain ⟨hsame, hend⟩ := hbody ht.2.2.2 closes closes hrest
    simpa [untyped, hsame] using hend
  | _ => cases hform

theorem Script.BranchesEnd.closes_pieces {ps : List Piece} (h : BranchesEnd ps) (bs : List Branch) :
    Closes (Branch.pieces elseIfPieces bs ++ ps) := by
  cases bs with
  | nil => exact h.closes
  | cons b bs =>
    obtain ⟨condition, body⟩ := b
    exact Script.closes

end

mutual

/-- Two statements whose pieces and what follows them agree differ in their types at most. Both have
one form; within a block the induction goes on up to the brace that closes it. -/
theorem Statement.Plain.untyped_eq : (s t : Statement) → s.Plain → t.Plain →
    {ps qs : List Piece} → s.pieces ++ ps = t.pieces ++ qs → s.untyped = t.untyped ∧ ps = qs
  | .declare .., _, hs, ht, _, _, h => hs.untyped_eq_declare ht h
  | .change .., _, hs, ht, _, _, h => hs.untyped_eq_change ht h
  | .print _, _, hs, ht, _, _, h => hs.untyped_eq_print ht h
  | .call .., _, hs, ht, _, _, h => hs.untyped_eq_call ht h
  | .giveBack _, _, hs, ht, _, _, h => hs.untyped_eq_giveBack ht h
  | .conditional branches none, _, hs, ht, _, _, h =>
    hs.untyped_eq_conditional (Branch.PlainAll.allTell branches hs.2 (.inl rfl)) ht h
  | .conditional branches (some body), _, hs, ht, _, _, h =>
    hs.untyped_eq_conditionalOtherwise (Branch.PlainAll.allTell branches hs.2.1 (.inl rfl))
      (Statement.PlainAll.blockTells body hs.2.2) ht h
  | .whileLoop _ body, _, hs, ht, _, _, h =>
    hs.untyped_eq_whileLoop (Statement.PlainAll.blockTells body hs.2) ht h
  | .forLoop _ _ _ body, _, hs, ht, _, _, h =>
    hs.untyped_eq_forLoop (Statement.PlainAll.blockTells body hs.2.2.2) ht h

theorem Statement.PlainAll.blockTells :
    (ss : List Statement) → Statement.PlainAll ss → Statement.BlockTells ss
  | [], _, ts, ht, ps, qs, hps, _, h => by
    cases ts with
    | nil => exact ⟨rfl, h⟩
    | cons t ts =>
      obtain ⟨w, rest, hw⟩ := ht.1.exists_pieces_eq_word
      rw [Statement.piecesAll, Statement.piecesAll, hw] at h
      exact absurd h (hps.ne_word _ _)
  | s :: ss, hs, ts, ht, ps, qs, hps, hqs, h => by
    cases ts with
    | nil =>
      obtain ⟨w, rest, hw⟩ := hs.1.exists_pieces_eq_word
      rw [Statement.piecesAll, Statement.piecesAll, hw] at h
      exact absurd h.symm (hqs.ne_word _ _)
    | cons t ts =>
      simp only [Statement.piecesAll, List.append_assoc] at h
      obtain ⟨hst, hrest⟩ := Statement.Plain.untyped_eq s t hs.1 ht.1 h
      obtain ⟨hsts, hend⟩ := Statement.PlainAll.blockTells ss hs.2 ht.2 hps hqs hrest
      exact ⟨by rw [Statement.untypedAll, Statement.untypedAll, hst, hsts], hend⟩

theorem Branch.PlainAll.allTell :
    (bs : List Branch) → Branch.PlainAll bs → {opening : List Piece} →
      opening = ifPieces ∨ opening = elseIfPieces → Branch.AllTell opening bs
  | [], _, opening, ho, cs, _, ps, qs, hps, _, h => by
    cases cs with
    | nil => exact ⟨rfl, h⟩
    | cons c cs =>
      obtain ⟨condition, body⟩ := c
      simp only [Branch.pieces, List.nil_append, List.append_assoc] at h
      exact absurd h (hps.ne_opening ho _)
  | ⟨condition, body⟩ :: bs, hb, opening, ho, cs, hc, ps, qs, hps, hqs, h => by
    cases cs with
    | nil =>
      simp only [Branch.pieces, List.nil_append, List.append_assoc] at h
      exact absurd h.symm (hqs.ne_opening ho _)
    | cons c cs =>
      obtain ⟨condition', body'⟩ := c
      simp only [Branch.pieces, List.append_assoc, List.append_cancel_left_eq,
        List.cons_append] at h
      obtain ⟨rfl, hrest⟩ := Expression.telling_pieces hb.1 hc.1 stop_parenthesis
        stop_parenthesis h
      simp only [List.cons.injEq, true_and] at hrest
      obtain ⟨hbody, hlater⟩ := Statement.PlainAll.blockTells body hb.2.1 hc.2.1
        (hps.closes_pieces bs) (hqs.closes_pieces cs) hrest
      obtain ⟨hbranches, hend⟩ := Branch.PlainAll.allTell bs hb.2.2 (.inr rfl) hc.2.2 hps hqs
        hlater
      exact ⟨by rw [Branch.untypedAll, Branch.untypedAll, hbody, hbranches], hend⟩

end

/-! ### Whole programs -/

theorem Function.Plain.untyped_eq {f g : Function} (hf : f.Plain) (hg : g.Plain)
    {ps qs : List Piece} (h : f.pieces ++ ps = g.pieces ++ qs) :
    f.untyped = g.untyped ∧ ps = qs := by
  have hnames : Telling (fun _ => True) fun name : String => [Piece.word name.toList] := by
    intro m n ps qs _ _ _ _ he
    simpa [String.toList_inj] using he
  have hparameters (f : Function) : f.parameters.map (fun p => [Piece.word p.name.toList]) =
      (f.parameters.map (·.name)).map fun name => [Piece.word name.toList] := by
    rw [List.map_map]
    rfl
  have huntyped (f : Function) : f.parameters.map Parameter.untyped =
      (f.parameters.map (·.name)).map fun name => ⟨name, ⟨false, .number⟩⟩ := by
    rw [List.map_map]
    rfl
  simp only [pieces, hparameters, List.cons_append, List.append_assoc, List.cons.injEq,
    Piece.word.injEq, String.toList_inj, List.nil_append, true_and] at h
  obtain ⟨hname, hlist⟩ := h
  obtain ⟨hsame, hrest⟩ := hnames.commaSeparated (by simp) (fun _ _ => trivial)
    (fun _ _ => trivial) hlist
  simp only [List.cons.injEq, true_and] at hrest
  obtain ⟨hbody, hend⟩ := Statement.PlainAll.blockTells f.body hf.body hg.body closes closes hrest
  refine ⟨?_, by simpa using hend⟩
  rw [untyped, untyped, huntyped, huntyped, hname, hsame, hbody]

theorem Function.form?_pieces (f : Function) (ps : List Piece) (hname : PlainName f.name) :
    form? (f.pieces ++ ps) = some .function := by
  simp [pieces, form?, formAfter?, hname.ne_hyphen]

theorem Statement.form_ne_function (s : Statement) : s.form ≠ .function := by
  cases s <;> simp [form]

theorem Item.Plain.untyped_eq {i j : Item} (hi : i.Plain) (hj : j.Plain) {ps qs : List Piece}
    (h : i.pieces ++ ps = j.pieces ++ qs) : i.untyped = j.untyped ∧ ps = qs := by
  have hdiffer {f : Function} {s : Statement} {ps qs : List Piece} (hf : f.Plain) (hs : s.Plain) :
      f.pieces ++ ps ≠ s.pieces ++ qs := by
    intro he
    have hform := hs.form?_pieces qs
    rw [← he, f.form?_pieces ps hf.name, Option.some_inj] at hform
    exact s.form_ne_function hform.symm
  cases i with
  | function f =>
    cases j with
    | function g =>
      obtain ⟨hfg, hend⟩ := Function.Plain.untyped_eq hi hj h
      exact ⟨congrArg Item.function hfg, hend⟩
    | statement s => exact absurd h (hdiffer hi hj)
  | statement s =>
    cases j with
    | function f => exact absurd h.symm (hdiffer hj hi)
    | statement t =>
      obtain ⟨hst, hend⟩ := Statement.Plain.untyped_eq s t hi hj h
      exact ⟨congrArg Item.statement hst, hend⟩

theorem Item.Plain.pieces_ne_nil {i : Item} (h : i.Plain) : i.pieces ≠ [] := by
  cases i with
  | function f => simp [pieces, Function.pieces]
  | statement s =>
    obtain ⟨w, ps, hw⟩ := Statement.Plain.exists_pieces_eq_word (s := s) h
    simp [pieces, hw]

/-- Plain programs have one script exactly if they differ in their types at most: those of their
variables, of the parameters of their functions and of what these return. -/
theorem javascript_eq_iff_untyped_eq {p q : Program} (hp : p.Plain) (hq : q.Plain) :
    p.javascript = q.javascript ↔ p.untyped = q.untyped := by
  refine ⟨fun h => ?_, fun h => by rw [← p.javascript_untyped, h, q.javascript_untyped]⟩
  have hpieces : p.items.flatMap Item.pieces = q.items.flatMap Item.pieces := by
    rw [← hp.cut_javascript, h, hq.cut_javascript]
  obtain ⟨items⟩ := p
  obtain ⟨items'⟩ := q
  rw [Program.untyped, Program.untyped, Program.mk.injEq]
  clear h
  induction items generalizing items' with
  | nil =>
    cases items' with
    | nil => rfl
    | cons j js =>
      have hj := hq j List.mem_cons_self
      simp [hj.pieces_ne_nil] at hpieces
  | cons i is ih =>
    have hi := hp i List.mem_cons_self
    cases items' with
    | nil => simp [hi.pieces_ne_nil] at hpieces
    | cons j js =>
      have hj := hq j List.mem_cons_self
      obtain ⟨hij, hrest⟩ := hi.untyped_eq hj hpieces
      have hlater := ih (fun k hk => hp k (List.mem_cons_of_mem i hk)) js
        (fun k hk => hq k (List.mem_cons_of_mem j hk)) hrest
      rw [List.map_cons, List.map_cons, hij, hlater]

/-- A function and a variable of one type, with names that mean something in a script. -/
def elseProgram (base : BaseType) : Program :=
  ⟨[.function ⟨"function", [⟨"else", ⟨false, base⟩⟩], some base,
      [.giveBack (.binary (.reference "else") .plus (.atom (.text "\"\n")))]⟩,
    .statement (.declare "var" (some ⟨true, base⟩) (some (.atom (.number "-.5"))))]⟩

theorem javascript_eq_iff_untyped_eq_elseProgram :
    (elseProgram .text).Plain ∧ (elseProgram .number).Plain ∧
      ((elseProgram .text).javascript = (elseProgram .number).javascript ↔
        (elseProgram .text).untyped = (elseProgram .number).untyped) := by
  have hplain (base : BaseType) : (elseProgram base).Plain := by
    have hfunction : PlainName "function" := ⟨(Atom.isReference_iff _).mp (by decide), by decide⟩
    have helse : PlainName "else" := ⟨(Atom.isReference_iff _).mp (by decide), by decide⟩
    have hvar : PlainName "var" := ⟨(Atom.isReference_iff _).mp (by decide), by decide⟩
    have hnumber : Atom.IsNumeral "-.5".toList := (Atom.isNumber_iff _).mp (by decide)
    have hvalue : ∀ e ∈ some (Expression.atom (.number "-.5")), e.Plain := by
      rintro e ⟨⟩
      exact hnumber
    refine List.forall_mem_cons.mpr ⟨⟨hfunction, ?_, ⟨helse, trivial⟩, trivial⟩, ?_⟩
    · exact List.forall_mem_singleton.mpr helse
    · exact List.forall_mem_singleton.mpr ⟨hvar, hvalue⟩
  exact ⟨hplain _, hplain _, javascript_eq_iff_untyped_eq (hplain _) (hplain _)⟩

end Wordy
