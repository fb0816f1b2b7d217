import Mathlib
import Wordy.Proofs.Concatenation

/-! Writing with a writer that is used again and again. It holds the text so far and how far it
indents, and a program is written by telling it one line after another. What a program comes to does
not depend on what the writer wrote before, and what a statement comes to depends on the blocks
around it only in how far its lines are indented. -/

namespace Wordy

/-- The text that is being written, and by how many units a line is indented now. The lines that
were told are kept beside the text, each with the units before it. -/
structure Writer where
  text : String := ""
  margin : Nat := 0
  told : List Line := []
deriving DecidableEq, Repr

/-- There is no result where the indentation would get below none. -/
abbrev Writing := StateT Writer Option

theorem Writing.run_bind_of_some {α β : Type} {action : Writing α} {next : α → Writing β}
    {w v : Writer} {a : α} (h : action.run w = some (a, v)) :
    (action >>= next).run w = (next a).run v := by
  rw [StateT.run_bind, h]
  rfl

namespace Writer

def tell (unit text : String) : Writing Unit :=
  modify fun w =>
    { w with
      text := w.text ++ Line.layout unit ⟨w.margin, text⟩
      told := w.told ++ [⟨w.margin, text⟩] }

def indent : Writing Unit := modify fun w => { w with margin := w.margin + 1 }

def dedent : Writing Unit := do
  let w ← get
  if w.margin = 0 then failure else set { w with margin := w.margin - 1 }

def indented (body : Writing Unit) : Writing Unit := do
  indent
  body
  dedent

def clear : Writing Unit := modify fun w => { w with text := "", margin := 0 }

def handOut : Writing String := do
  let w ← get
  set { w with text := "" }
  return w.text

end Writer

/-- The texts of the lines of a target, and its unit of indentation. -/
structure Wording where
  unit : String
  declare : String → Option Ascription → Option Expression → String
  change : Change → String → Expression → String
  print : Expression → String
  /-- The first branch of a conditional begins in another way than the others. -/
  branch : Bool → Expression → String
  otherwise : String
  whileLoop : Expression → String
  forLoop : String → Expression → Expression → String
  call : String → List Expression → Option String → String
  giveBack : Expression → String
  function : String → List Parameter → Option BaseType → String
  /-- The line that ends the block which the token ends in the source. -/
  closing : Token → String

namespace Wording

open Lexeme

def javascript : Wording where
  unit := "\t"
  declare name _ value :=
    match value with
    | some value => "var " ++ name ++ " = " ++ value.javascript ++ ";"
    | none => "var " ++ name ++ ";"
  change change target value :=
    target ++ " " ++ change.symbol ++ " " ++ value.javascript ++ ";"
  print value := "VM.print(" ++ value.javascript ++ ");"
  branch isFirst condition :=
    (if isFirst then "if (" else "\x7d else if (") ++ condition.javascript ++ ") \x7b"
  otherwise := "\x7d else \x7b"
  whileLoop condition := "while (" ++ condition.javascript ++ ") \x7b"
  forLoop iterator lower upper :=
    "for (var " ++ iterator ++ " = " ++ lower.javascript ++ "; " ++ iterator ++ " <= " ++
      upper.javascript ++ "; " ++ iterator ++ "++) \x7b"
  call function arguments result :=
    match result with
    | some result =>
      result ++ " = " ++ function ++ "(" ++
        ", ".intercalate (arguments.map Expression.javascript) ++ ");"
    | none => function ++ "(" ++ ", ".intercalate (arguments.map Expression.javascript) ++ ");"
  giveBack value := "return " ++ value.javascript ++ ";"
  function name parameters _ :=
    "function " ++ name ++ " (" ++ ", ".intercalate (parameters.map (·.name)) ++ ") \x7b"
  closing _ := "\x7d"

def wordy : Wording where
  unit := "    "
  declare name ascription value :=
    spaced (token .defineVariable :: word name :: token .toBe ::
      optionalLexemes Ascription.lexemes ascription ++
      optionalLexemes (token .initializedTo :: Expression.lexemes ·) value)
  change change target value :=
    spaced (token change.token :: word target :: token change.connector :: value.lexemes)
  print value := spaced (token .print :: value.lexemes)
  branch isFirst condition :=
    spaced (token (if isFirst then .ifWord else .butIf) :: condition.lexemes ++ [token .doWord])
  otherwise := spaced [token .otherwise, token .doWord]
  whileLoop condition := spaced (token .whileWord :: condition.lexemes ++ [token .doWord])
  forLoop iterator lower upper :=
    spaced (token .forWord :: word iterator :: token .fromWord :: lower.lexemes ++
      token .toWord :: upper.lexemes ++ [token .doWord])
  call function arguments result :=
    spaced (token .callFunction :: word function ::
      (if arguments.isEmpty then []
        else token .withArg :: commaSeparated (arguments.map Expression.lexemes)) ++
      optionalLexemes ([token .thenPutResultInto, word ·]) result)
  giveBack value := spaced (token .returnWord :: value.lexemes)
  function name parameters returns :=
    spaced (token .defineFunction :: word name ::
      (if parameters.isEmpty then []
        else token .withParam :: commaSeparated (parameters.map Parameter.lexemes)) ++
      optionalLexemes (fun base => [token .thatReturn, token base.token]) returns ++
      [token .doWord])
  closing blockEnd := spaced [token blockEnd]

end Wording

open Writer

mutual

def Statement.write (wording : Wording) : Statement → Writing Unit
  | .declare name ascription value => tell wording.unit (wording.declare name ascription value)
  | .change change target value => tell wording.unit (wording.change change target value)
  | .print value => tell wording.unit (wording.print value)
  | .conditional branches none => do
    Branch.write wording true branches
    tell wording.unit (wording.closing .endOfIf)
  | .conditional branches (some body) => do
    Branch.write wording true branches
    tell wording.unit wording.otherwise
    indented (Statement.writeAll wording body)
    tell wording.unit (wording.closing .endOfIf)
  | .whileLoop condition body => do
    tell wording.unit (wording.whileLoop condition)
    indented (Statement.writeAll wording body)
    tell wording.unit (wording.closing .endOfWhile)
  | .forLoop iterator lower upper body => do
    tell wording.unit (wording.forLoop iterator lower upper)
    indented (Statement.writeAll wording body)
    tell wording.unit (wording.closing .endOfFor)
  | .call function arguments result =>
    tell wording.unit (wording.call function arguments result)
  | .giveBack value => tell wording.unit (wording.giveBack value)

def Statement.writeAll (wording : Wording) : List Statement → Writing Unit
  | [] => pure ()
  | statement :: statements => do
    statement.write wording
    Statement.writeAll wording statements

def Branch.write (wording : Wording) (isFirst : Bool) : List Branch → Writing Unit
  | [] => pure ()
  | ⟨condition, body⟩ :: branches => do
    tell wording.unit (wording.branch isFirst condition)
    indented (Statement.writeAll wording body)
    Branch.write wording false branches

end

def Function.write (wording : Wording) (function : Function) : Writing Unit := do
  tell wording.unit (wording.function function.name function.parameters function.returns)
  indented (Statement.writeAll wording function.body)
  tell wording.unit (wording.closing .endOfFunction)

def Item.write (wording : Wording) : Item → Writing Unit
  | function value => value.write wording
  | statement value => value.write wording

def Program.write (wording : Wording) (program : Program) : Writing String := do
  clear
  program.items.forM (Item.write wording)
  handOut

namespace Target

def wording : Target → Wording
  | javascript => .javascript
  | wordy => .wordy

/-- The lines that a statement is written in where no block is around it. -/
def lines : Target → Statement → List Line
  | javascript => Statement.javascript
  | wordy => Statement.source

def linesAll : Target → List Statement → List Line
  | javascript => Statement.javascriptAll
  | wordy => Statement.sourceAll

def branchLines : Target → Bool → List Branch → List Line
  | javascript, isFirst => Branch.javascript (if isFirst then "if (" else "\x7d else if (")
  | wordy, isFirst => Branch.source (if isFirst then .ifWord else .butIf)

def itemLines : Target → Item → List Line
  | javascript => Item.javascript
  | wordy => Item.source

theorem render_eq (target : Target) (program : Program) :
    target.render program =
      layout target.wording.unit (program.items.flatMap target.itemLines) := by
  cases target <;> rfl

theorem lines_conditional (target : Target) (branches : List Branch) (body : List Statement) :
    target.lines (.conditional branches (some body)) =
      target.branchLines true branches ++ (line target.wording.otherwise ::
        (block (target.linesAll body) ++ [line (target.wording.closing .endOfIf)])) := by
  cases target <;> exact List.append_assoc _ (_ :: _) _

end Target

def Line.deepen (depth : Nat) (line : Line) : Line := { line with depth := depth + line.depth }

theorem Line.deepen_zero (line : Line) : line.deepen 0 = line := by
  rw [deepen, Nat.zero_add]

theorem map_deepen_zero (lines : List Line) : lines.map (Line.deepen 0) = lines := by
  rw [List.map_congr_left fun line _ => line.deepen_zero, List.map_id']

theorem map_deepen_map_deepen (m n : Nat) (lines : List Line) :
    (lines.map (Line.deepen m)).map (Line.deepen n) = lines.map (Line.deepen (n + m)) := by
  rw [List.map_map]
  refine List.map_congr_left fun line _ => ?_
  simp only [Function.comp_apply, Line.deepen, Nat.add_assoc]

theorem Line.deeper_eq_deepen : Line.deeper = Line.deepen 1 := by
  funext line
  rw [deeper, deepen, Nat.add_comm]

/-- The writer after it was told the lines where it stands. -/
def Writer.extend (unit : String) (lines : List Line) (w : Writer) : Writer where
  text := w.text ++ layout unit (lines.map (Line.deepen w.margin))
  margin := w.margin
  told := w.told ++ lines.map (Line.deepen w.margin)

/-- However far the writer is and however far it indents, it is told these lines, behind as many
units more, and indents as far as before. -/
def Tells (unit : String) (action : Writing Unit) (lines : List Line) : Prop :=
  ∀ w, action.run w = some ((), w.extend unit lines)

namespace Tells

variable {unit : String} {action next : Writing Unit} {lines more : List Line}

theorem nil : Tells unit (pure ()) [] := by
  intro w
  simp [Writer.extend, layout, pure, StateT.pure, StateT.run]

theorem tell (unit text : String) : Tells unit (Writer.tell unit text) [line text] := by
  intro w
  simp [Writer.extend, Writer.tell, layout, line, Line.deepen, modify, modifyGet,
    MonadStateOf.modifyGet, StateT.modifyGet, StateT.run, pure]

theorem append (h : Tells unit action lines) (hnext : Tells unit next more) :
    Tells unit (do action; next) (lines ++ more) := by
  intro w
  rw [Writing.run_bind_of_some (h w), hnext (w.extend unit lines)]
  simp [Writer.extend, List.map_append, layout_append, String.append_assoc]

theorem indented (h : Tells unit action lines) :
    Tells unit (Writer.indented action) (block lines) := by
  intro w
  have hbody : action.run { w with margin := w.margin + 1 } =
      some ((), Writer.extend unit lines { w with margin := w.margin + 1 }) := h _
  have hdedent : dedent.run (Writer.extend unit lines { w with margin := w.margin + 1 }) =
      some ((), w.extend unit (block lines)) := by
    have hmap := map_deepen_map_deepen 1 w.margin lines
    simp only [Writer.extend, block, Line.deeper_eq_deepen, hmap]
    rfl
  have hindent : indent.run w = some ((), { w with margin := w.margin + 1 }) := rfl
  rw [Writer.indented, Writing.run_bind_of_some hindent, Writing.run_bind_of_some hbody]
  exact hdedent

end Tells

section

variable (target : Target)

mutual

theorem Statement.tells_write : ∀ statement : Statement,
    Tells target.wording.unit (statement.write target.wording) (target.lines statement)
  | .declare name ascription value => by
    cases target <;> cases value <;> exact .tell _ _
  | .change change name value => by
    cases target <;> exact .tell _ _
  | .print value => by
    cases target <;> exact .tell _ _
  | .conditional branches none => by
    have hbranches := Branch.tells_write true branches
    cases target <;> exact hbranches.append (.tell _ _)
  | .conditional branches (some body) => by
    have hbranches := Branch.tells_write true branches
    have hbody := (Statement.tells_writeAll body).indented
    have hend := hbody.append (.tell target.wording.unit (target.wording.closing .endOfIf))
    have hall := hbranches.append ((Tells.tell _ target.wording.otherwise).append hend)
    rw [target.lines_conditional]
    exact hall
  | .whileLoop condition body => by
    have hbody := (Statement.tells_writeAll body).indented
    cases target <;> exact (Tells.tell _ _).append (hbody.append (.tell _ _))
  | .forLoop iterator lower upper body => by
    have hbody := (Statement.tells_writeAll body).indented
    cases target <;> exact (Tells.tell _ _).append (hbody.append (.tell _ _))
  | .call function arguments result => by
    cases target <;> cases result <;> exact .tell _ _
  | .giveBack value => by
    cases target <;> exact .tell _ _

theorem Statement.tells_writeAll : ∀ statements : List Statement,
    Tells target.wording.unit (Statement.writeAll target.wording statements)
      (target.linesAll statements)
  | [] => by
    cases target <;> exact .nil
  | statement :: statements => by
    have hfirst := Statement.tells_write statement
    have hothers := Statement.tells_writeAll statements
    cases target <;> exact hfirst.append hothers

theorem Branch.tells_write : ∀ (isFirst : Bool) (branches : List Branch),
    Tells target.wording.unit (Branch.write target.wording isFirst branches)
      (target.branchLines isFirst branches)
  | _, [] => by
    cases target <;> exact .nil
  | isFirst, ⟨condition, body⟩ :: branches => by
    have hbody := (Statement.tells_writeAll body).indented
    have hothers := Branch.tells_write false branches
    cases target <;> exact (Tells.tell _ _).append (hbody.append hothers)

end

theorem Item.tells_write (item : Item) :
    Tells target.wording.unit (item.write target.wording) (target.itemLines item) := by
  cases item with
  | statement value =>
    have hvalue := Statement.tells_write target value
    cases target <;> exact hvalue
  | function value =>
    have hbody := (Statement.tells_writeAll target value.body).indented
    cases target <;> exact (Tells.tell _ _).append (hbody.append (.tell _ _))

theorem Item.tells_forM (items : List Item) :
    Tells target.wording.unit (items.forM (Item.write target.wording))
      (items.flatMap target.itemLines) := by
  induction items with
  | nil => exact .nil
  | cons item items ih => exact (item.tells_write target).append ih

/-- Whatever the writer did before, it hands out the program and is left without a text. -/
theorem Program.run_write (program : Program) (w : Writer) :
    (program.write target.wording).run w =
      some (target.render program, ⟨"", 0, w.told ++ program.items.flatMap target.itemLines⟩) := by
  have hitems : (program.items.forM (Item.write target.wording)).run ⟨"", 0, w.told⟩ =
      some ((), ⟨target.render program, 0, w.told ++ program.items.flatMap target.itemLines⟩) := by
    rw [Item.tells_forM target program.items ⟨"", 0, w.told⟩, target.render_eq]
    simp [Writer.extend, map_deepen_zero]
  have hclear : clear.run w = some ((), ⟨"", 0, w.told⟩) := rfl
  rw [Program.write, Writing.run_bind_of_some hclear, Writing.run_bind_of_some hitems]
  rfl

theorem Program.run_mapM_write (programs : List Program) (w : Writer) :
    ∃ after, (programs.mapM (Program.write target.wording)).run w =
      some (programs.map target.render, after) := by
  induction programs generalizing w with
  | nil => exact ⟨w, rfl⟩
  | cons program programs ih =>
    obtain ⟨after, hafter⟩ := ih ⟨"", 0, w.told ++ program.items.flatMap target.itemLines⟩
    refine ⟨after, ?_⟩
    rw [List.mapM_cons, Writing.run_bind_of_some (program.run_write target w),
      Writing.run_bind_of_some hafter]
    rfl

end

namespace Target

def fresh? (target : Target) (program : Program) : Option String :=
  (program.write target.wording).run' {}

theorem fresh?_eq (target : Target) (program : Program) :
    target.fresh? program = some (target.render program) := by
  rw [fresh?, StateT.run'_eq, program.run_write]
  rfl

theorem render_eq_join (target : Target) (items : List Item) :
    target.render ⟨items⟩ = String.join (items.map fun item => target.render ⟨[item]⟩) := by
  induction items with
  | nil => cases target <;> rfl
  | cons item items ih =>
    have happend := target.render_append [item] items
    rw [List.singleton_append] at happend
    rw [happend, ih, List.map_cons, String.join_cons]

theorem mapM_fresh?_items (target : Target) (items : List Item) :
    (items.mapM fun item => target.fresh? ⟨[item]⟩).map String.join =
      some (target.render ⟨items⟩) := by
  have hitems : (items.mapM fun item => target.fresh? ⟨[item]⟩) =
      some (items.map fun item => target.render ⟨[item]⟩) := by
    simp only [fresh?_eq]
    exact List.mapM_pure
  rw [hitems, Option.map_some, ← render_eq_join]

end Target

/-- A statement without one of its blocks. -/
inductive Statement.Frame
  | branch (earlier : List Branch) (condition : Expression) (later : List Branch)
      (other : Option (List Statement))
  | otherwise (branches : List Branch)
  | whileLoop (condition : Expression)
  | forLoop (iterator : String) (lower upper : Expression)

def Statement.Frame.plug : Statement.Frame → List Statement → Statement
  | branch earlier condition later other, body =>
    .conditional (earlier ++ ⟨condition, body⟩ :: later) other
  | otherwise branches, body => .conditional branches (some body)
  | whileLoop condition, body => .whileLoop condition body
  | forLoop iterator lower upper, body => .forLoop iterator lower upper body

/-- What stands around a statement in a block, and around the block. -/
structure Statement.Layer where
  frame : Statement.Frame
  earlier : List Statement
  later : List Statement

def Statement.Layer.plug (layer : Statement.Layer) (s : Statement) : Statement :=
  layer.frame.plug (layer.earlier ++ s :: layer.later)

/-- The layers are those from the statement outwards. -/
def Statement.plug : List Statement.Layer → Statement → Statement
  | [], s => s
  | layer :: layers, s => Statement.plug layers (layer.plug s)

/-- What stands around a statement in a program. -/
inductive Program.Context
  | outside (earlier : List Item) (layers : List Statement.Layer) (later : List Item)
  | function (earlier : List Item) (around : Function) (before : List Statement)
      (layers : List Statement.Layer) (after : List Statement) (later : List Item)

namespace Program.Context

/-- How many blocks are around the statement. -/
def depth : Context → Nat
  | outside _ layers _ => layers.length
  | function _ _ _ layers _ _ => layers.length + 1

def plug : Context → Statement → Program
  | outside earlier layers later, s => ⟨earlier ++ .statement (s.plug layers) :: later⟩
  | function earlier around before layers after later, s =>
    ⟨earlier ++
      .function { around with body := before ++ s.plug layers :: after } :: later⟩

end Program.Context

/-- The outer lines are the inner ones between lines that are always the same. -/
def Surrounds {α : Type} (outer inner : α → List Line) : Prop :=
  ∃ before after, ∀ x, outer x = before ++ inner x ++ after

namespace Surrounds

variable {α β : Type} {outer middle inner : α → List Line}

theorem trans (h : Surrounds outer middle) (hinner : Surrounds middle inner) :
    Surrounds outer inner := by
  obtain ⟨before, after, h⟩ := h
  obtain ⟨before', after', hinner⟩ := hinner
  refine ⟨before ++ before', after' ++ after, fun x => ?_⟩
  rw [h, hinner]
  simp only [List.append_assoc]

theorem comp (h : Surrounds outer inner) (f : β → α) :
    Surrounds (fun x => outer (f x)) (fun x => inner (f x)) := by
  obtain ⟨before, after, h⟩ := h
  exact ⟨before, after, fun x => h (f x)⟩

theorem map (h : Surrounds outer inner) (f : Line → Line) :
    Surrounds (fun x => (outer x).map f) (fun x => (inner x).map f) := by
  obtain ⟨before, after, h⟩ := h
  refine ⟨before.map f, after.map f, fun x => ?_⟩
  beta_reduce
  rw [h, List.map_append, List.map_append]

end Surrounds

namespace Target

variable (target : Target)

theorem linesAll_eq_flatMap (statements : List Statement) :
    target.linesAll statements = statements.flatMap target.lines := by
  induction statements with
  | nil => cases target <;> rfl
  | cons s statements ih =>
    rw [List.flatMap_cons, ← ih]
    cases target <;> rfl

theorem surrounds_linesAll (earlier later : List Statement) :
    Surrounds (fun s => target.linesAll (earlier ++ s :: later)) target.lines := by
  refine ⟨earlier.flatMap target.lines, later.flatMap target.lines, fun s => ?_⟩
  beta_reduce
  rw [target.linesAll_eq_flatMap, List.flatMap_append, List.flatMap_cons, List.append_assoc]

theorem branchLines_cons (isFirst : Bool) (condition : Expression) (body : List Statement)
    (branches : List Branch) :
    target.branchLines isFirst (⟨condition, body⟩ :: branches) =
      [line (target.wording.branch isFirst condition)] ++ block (target.linesAll body) ++
        target.branchLines false branches := by
  cases target <;> cases isFirst <;> rfl

theorem surrounds_branchLines (isFirst : Bool) (earlier : List Branch) (condition : Expression)
    (later : List Branch) :
    Surrounds (fun body => target.branchLines isFirst (earlier ++ ⟨condition, body⟩ :: later))
      (fun body => block (target.linesAll body)) := by
  induction earlier generalizing isFirst with
  | nil => exact ⟨_, _, fun body => target.branchLines_cons isFirst condition body later⟩
  | cons first others ih =>
    obtain ⟨condition', body'⟩ := first
    have hfirst : Surrounds
        (fun body => target.branchLines isFirst
          (⟨condition', body'⟩ :: (others ++ ⟨condition, body⟩ :: later)))
        (fun body => target.branchLines false (others ++ ⟨condition, body⟩ :: later)) := by
      refine ⟨[line (target.wording.branch isFirst condition')] ++
        block (target.linesAll body'), [], fun body => ?_⟩
      rw [List.append_nil]
      exact target.branchLines_cons isFirst condition' body' _
    exact hfirst.trans (ih false)

theorem surrounds_frame (frame : Statement.Frame) :
    Surrounds (fun body => target.lines (frame.plug body))
      (fun body => block (target.linesAll body)) := by
  cases frame with
  | branch earlier condition later other =>
    have hbranches : Surrounds
        (fun body => target.lines (.conditional (earlier ++ ⟨condition, body⟩ :: later) other))
        (fun body => target.branchLines true (earlier ++ ⟨condition, body⟩ :: later)) := by
      cases other with
      | none => cases target <;> exact ⟨[], _, fun _ => rfl⟩
      | some other => exact ⟨[], _, fun _ => target.lines_conditional _ other⟩
    exact hbranches.trans (target.surrounds_branchLines true earlier condition later)
  | otherwise branches =>
    refine ⟨target.branchLines true branches ++ [line target.wording.otherwise],
      [line (target.wording.closing .endOfIf)], fun body => ?_⟩
    exact (target.lines_conditional branches body).trans (by simp)
  | whileLoop condition => cases target <;> exact ⟨[_], _, fun _ => rfl⟩
  | forLoop iterator lower upper => cases target <;> exact ⟨[_], _, fun _ => rfl⟩

/-- Each layer moves a statement in by one unit, and has the same lines around it whatever the
statement is. -/
theorem surrounds_plug (layers : List Statement.Layer) :
    Surrounds (fun s => target.lines (s.plug layers))
      (fun s => (target.lines s).map (Line.deepen layers.length)) := by
  induction layers with
  | nil => exact ⟨[], [], fun s => by simp [Statement.plug, map_deepen_zero]⟩
  | cons layer layers ih =>
    have hlayer : Surrounds (fun s => target.lines (layer.plug s))
        (fun s => block (target.lines s)) :=
      ((target.surrounds_frame layer.frame).comp _).trans
        ((target.surrounds_linesAll layer.earlier layer.later).map Line.deeper)
    have hall := (ih.comp layer.plug).trans (hlayer.map (Line.deepen layers.length))
    simp only [block, Line.deeper_eq_deepen, map_deepen_map_deepen] at hall
    exact hall

theorem surrounds_program (context : Program.Context) :
    Surrounds (fun s => (context.plug s).items.flatMap target.itemLines)
      (fun s => (target.lines s).map (Line.deepen context.depth)) := by
  have hitem (earlier later : List Item) :
      Surrounds (fun item => (earlier ++ item :: later).flatMap target.itemLines)
        target.itemLines := by
    refine ⟨earlier.flatMap target.itemLines, later.flatMap target.itemLines, fun item => ?_⟩
    beta_reduce
    rw [List.flatMap_append, List.flatMap_cons, List.append_assoc]
  cases context with
  | outside earlier layers later =>
    have hlines : Surrounds (fun s => target.itemLines (.statement s)) target.lines := by
      cases target <;> exact ⟨[], [], fun _ => (List.append_nil _).symm⟩
    exact ((hitem earlier later).comp _).trans
      ((hlines.comp (Statement.plug layers)).trans (target.surrounds_plug layers))
  | function earlier around before layers after later =>
    have hbody : Surrounds (fun body => target.itemLines (.function { around with body }))
        (fun body => block (target.linesAll body)) := by
      refine ⟨[line (target.wording.function around.name around.parameters around.returns)],
        [line (target.wording.closing .endOfFunction)], fun body => ?_⟩
      cases target <;> rfl
    -- The body stands one level deeper than its function, and the layers are counted from there.
    have hblock := (hbody.comp _).trans ((target.surrounds_linesAll before after).map Line.deeper)
    have hall := (hblock.comp (Statement.plug layers)).trans
      ((target.surrounds_plug layers).map Line.deeper)
    simp only [Line.deeper_eq_deepen, map_deepen_map_deepen, Nat.add_comm 1] at hall
    exact ((hitem earlier later).comp _).trans hall

end Target

/-- Whatever a writer has written before, it makes of each program what new writers make of the
items of the program, one after the other. A statement is told in the same lines wherever it stands,
with as many units before each of them as there are blocks around the statement, and nothing around
it depends on it. -/
theorem write_itemwise (target : Target) (w : Writer) (programs : List Program) :
    (programs.mapM (Program.write target.wording)).run' w = some (programs.map target.render) ∧
      (programs.mapM (Program.write target.wording)).run' w =
        programs.mapM (fun program =>
          (program.items.mapM fun item => target.fresh? ⟨[item]⟩).map String.join) ∧
      (∀ (s : Statement) (v : Writer),
        (s.write target.wording).run {} =
            some ((), ⟨layout target.wording.unit (target.lines s), 0, target.lines s⟩) ∧
          (s.write target.wording).run v =
            some ((), ⟨v.text ++ layout target.wording.unit
                ((target.lines s).map (Line.deepen v.margin)),
              v.margin, v.told ++ (target.lines s).map (Line.deepen v.margin)⟩)) ∧
      ∀ context : Program.Context, ∃ before after, ∀ s : Statement,
        ((context.plug s).write target.wording).run w =
          some (layout target.wording.unit
              (before ++ (target.lines s).map (Line.deepen context.depth) ++ after),
            ⟨"", 0, w.told ++
              (before ++ (target.lines s).map (Line.deepen context.depth) ++ after)⟩) := by
  have hrun : (programs.mapM (Program.write target.wording)).run' w =
      some (programs.map target.render) := by
    obtain ⟨after, hafter⟩ := Program.run_mapM_write target programs w
    rw [StateT.run'_eq, hafter]
    rfl
  have hitems : programs.mapM (fun program =>
      (program.items.mapM fun item => target.fresh? ⟨[item]⟩).map String.join) =
        some (programs.map target.render) := by
    simp only [target.mapM_fresh?_items]
    exact List.mapM_pure
  refine ⟨hrun, hrun.trans hitems.symm, fun s v => ⟨?_, s.tells_write target v⟩, fun context => ?_⟩
  · rw [s.tells_write target {}]
    simp [Writer.extend, map_deepen_zero]
  · obtain ⟨before, after, hlines⟩ := target.surrounds_program context
    refine ⟨before, after, fun s => ?_⟩
    have hs : (context.plug s).items.flatMap target.itemLines = _ := hlines s
    rw [Program.run_write target (context.plug s) w, target.render_eq, hs]

/-- Two blocks are around the statement, and so two units before its line. -/
example : (((Program.Context.function [] ⟨"f", [], none, []⟩ []
      [⟨.whileLoop (.atom (.truth true)), [], []⟩] [] []).plug
    (.print (.atom (.number "1")))).write Wording.wordy).run' {} =
      some ("define function f do\n    while true do\n        print 1\n" ++
        "    end of while\nend of function\n") := by
  decide +kernel

end Wordy
