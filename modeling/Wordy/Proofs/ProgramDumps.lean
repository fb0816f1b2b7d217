import Mathlib
import Wordy.Compiler
import Wordy.Proofs.JsonTexts

/-! Reading programs back from their JSON. Every alternative of a sum is told apart by its key, and
every form of a statement by its member `type`, so a reader that follows the dump comes to the same
program. Together with the reader of JSON texts it undoes the text of a dump. -/

namespace Wordy

open Json

def Json.string? : Json → Option String
  | string value => some value
  | _ => none

def Json.optional? {α : Type} (ofJson? : Json → Option α) : Json → Option (Option α)
  | null => some none
  | value => (ofJson? value).map some

theorem Json.string?_string (value : String) : string? (string value) = some value := rfl

section

variable {α : Type} {toJson : α → Json} {ofJson? : Json → Option α}

theorem Json.optional?_optional (h : ∀ a, ofJson? (toJson a) = some a)
    (hnull : ofJson? null = none) (value : Option α) :
    optional? ofJson? (optional toJson value) = some value := by
  cases value with
  | none => rfl
  | some a =>
    have hne : toJson a ≠ null := fun ha => by
      have := h a
      rw [ha, hnull] at this
      cases this
    rw [optional, optional?, h, Option.map_some]
    exact hne

theorem Json.mapM_map (h : ∀ a, ofJson? (toJson a) = some a) (values : List α) :
    (values.map toJson).mapM ofJson? = some values := by
  have hpure : ofJson? ∘ toJson = pure := funext h
  rw [List.mapM_map, hpure]
  simpa using List.mapM_pure (m := Option) (l := values) (f := id)

end

/-! ### Expressions -/

def Atom.ofJson? : Json → Option Atom
  | .object [("Number", .string digits)] => some (number digits)
  | .object [("String", .string contents)] => some (text contents)
  | .object [("Boolean", .boolean value)] => some (truth value)
  | .object [("Variable", .string name)] => some (reference name)
  | _ => none

def BinaryOperator.ofJson? : Json → Option BinaryOperator
  | .string name => all.find? (·.name = name)
  | _ => none

def Expression.ofJson? : Json → Option Expression
  | .object [("Atom", value)] => return atom (← Atom.ofJson? value)
  | .object [("Unary", .object [("operator", .string "Not"), ("operand", operand)])] =>
    return negation (← ofJson? operand)
  | .object [("Binary", .object [("left", left), ("operator", operator), ("right", right)])] =>
    return binary (← Atom.ofJson? left) (← BinaryOperator.ofJson? operator) (← ofJson? right)
  | _ => none

theorem Atom.ofJson?_dump (atom : Atom) : ofJson? atom.dump = some atom := by
  cases atom <;> rfl

theorem BinaryOperator.ofJson?_name (operator : BinaryOperator) :
    ofJson? (.string operator.name) = some operator := by
  cases operator <;> decide

theorem Expression.ofJson?_dump (expression : Expression) :
    ofJson? expression.dump = some expression := by
  induction expression with
  | atom value => simp [dump, ofJson?, Atom.ofJson?_dump]
  | negation operand ih => simp [dump, ofJson?, ih]
  | binary left operator right ih =>
    simp [dump, ofJson?, Atom.ofJson?_dump, BinaryOperator.ofJson?_name, ih]

/-! ### Statements -/

def BaseType.ofJson? : Json → Option BaseType
  | .string "Number" => some number
  | .string "String" => some text
  | .string "Boolean" => some truth
  | _ => none

def Ascription.ofJson? : Json → Option Ascription
  | .object [("mutable", .boolean isMutable), ("variable_type", base)] =>
    return ⟨isMutable, ← BaseType.ofJson? base⟩
  | _ => none

def Change.ofForm? (form : String) : Option Change :=
  [assign, increase, decrease].find? (·.form = form)

mutual

def Statement.ofJson? : Json → Option Statement
  | .object (("type", .string form) :: members) => Statement.ofMembers? form members
  | _ => none

/-- Reads a statement of the form from the members after the first. -/
def Statement.ofMembers? : String → List (String × Json) → Option Statement
  | "VariableDeclaration",
    [("name", .string name), ("type_info", ascription), ("initial_value", value)] =>
    return .declare name (← optional? Ascription.ofJson? ascription)
      (← optional? Expression.ofJson? value)
  | "PrintStatement", [("value", value)] => return .print (← Expression.ofJson? value)
  | "IfBlock", [("branches", .array branches), ("otherwise", .null)] =>
    return .conditional (← Branch.ofJsons? branches) none
  | "IfBlock", [("branches", .array branches), ("otherwise", .array body)] =>
    return .conditional (← Branch.ofJsons? branches) (some (← Statement.ofJsons? body))
  | "WhileBlock", [("condition", condition), ("body", .array body)] =>
    return .whileLoop (← Expression.ofJson? condition) (← Statement.ofJsons? body)
  | "ForBlock",
    [("iterator", .string iterator), ("from", lower), ("to", upper), ("body", .array body)] =>
    return .forLoop iterator (← Expression.ofJson? lower) (← Expression.ofJson? upper)
      (← Statement.ofJsons? body)
  | "FunctionCall",
    [("name", .string function), ("arguments", .array arguments), ("result_target", result)] =>
    return .call function (← arguments.mapM Expression.ofJson?) (← optional? string? result)
  | "FunctionReturn", [("value", value)] => return .giveBack (← Expression.ofJson? value)
  | form, [("target", .string target), ("value", value)] =>
    return .change (← Change.ofForm? form) target (← Expression.ofJson? value)
  | _, _ => none

def Statement.ofJsons? : List Json → Option (List Statement)
  | [] => some []
  | value :: values => return (← Statement.ofJson? value) :: (← Statement.ofJsons? values)

def Branch.ofJsons? : List Json → Option (List Branch)
  | [] => some []
  | .object [("condition", condition), ("body", .array body)] :: branches =>
    return ⟨← Expression.ofJson? condition, ← Statement.ofJsons? body⟩ ::
      (← Branch.ofJsons? branches)
  | _ :: _ => none

end

theorem BaseType.ofJson?_dump (base : BaseType) : ofJson? base.dump = some base := by
  cases base <;> rfl

theorem Ascription.ofJson?_dump (ascription : Ascription) :
    ofJson? ascription.dump = some ascription := by
  simp [dump, ofJson?, BaseType.ofJson?_dump]

theorem Change.ofForm?_form (change : Change) : ofForm? change.form = some change := by
  cases change <;> decide

mutual

theorem Statement.ofJson?_dump : (statement : Statement) →
    Statement.ofJson? statement.dump = some statement
  | .declare name ascription value => by
    have hascription := optional?_optional Ascription.ofJson?_dump rfl ascription
    have hvalue := optional?_optional Expression.ofJson?_dump rfl value
    simp [Statement.dump, Statement.ofJson?, Statement.ofMembers?, hascription, hvalue]
  | .change change target value => by
    have hform := Change.ofForm?_form change
    cases change <;>
      simp_all [Statement.dump, Statement.ofJson?, Statement.ofMembers?, Change.form,
        Expression.ofJson?_dump]
  | .print value => by
    simp [Statement.dump, Statement.ofJson?, Statement.ofMembers?, Expression.ofJson?_dump]
  | .conditional branches none => by
    have hbranches := Branch.ofJsons?_dumpAll branches
    simp [Statement.dump, Statement.ofJson?, Statement.ofMembers?, hbranches]
  | .conditional branches (some body) => by
    have hbranches := Branch.ofJsons?_dumpAll branches
    have hbody := Statement.ofJsons?_dumpAll body
    simp [Statement.dump, Statement.ofJson?, Statement.ofMembers?, hbranches, hbody]
  | .whileLoop condition body => by
    have hbody := Statement.ofJsons?_dumpAll body
    simp [Statement.dump, Statement.ofJson?, Statement.ofMembers?, Expression.ofJson?_dump, hbody]
  | .forLoop iterator lower upper body => by
    have hbody := Statement.ofJsons?_dumpAll body
    simp [Statement.dump, Statement.ofJson?, Statement.ofMembers?, Expression.ofJson?_dump, hbody]
  | .call function arguments result => by
    have harguments := mapM_map Expression.ofJson?_dump arguments
    have hresult := optional?_optional string?_string rfl result
    simp [Statement.dump, Statement.ofJson?, Statement.ofMembers?, harguments, hresult]
  | .giveBack value => by
    simp [Statement.dump, Statement.ofJson?, Statement.ofMembers?, Expression.ofJson?_dump]

theorem Statement.ofJsons?_dumpAll : (statements : List Statement) →
    Statement.ofJsons? (Statement.dumpAll statements) = some statements
  | [] => rfl
  | statement :: statements => by
    have hstatement := Statement.ofJson?_dump statement
    have hstatements := Statement.ofJsons?_dumpAll statements
    simp [Statement.dumpAll, Statement.ofJsons?, hstatement, hstatements]

theorem Branch.ofJsons?_dumpAll : (branches : List Branch) →
    Branch.ofJsons? (Branch.dumpAll branches) = some branches
  | [] => rfl
  | ⟨condition, body⟩ :: branches => by
    have hbody := Statement.ofJsons?_dumpAll body
    have hbranches := Branch.ofJsons?_dumpAll branches
    simp [Branch.dumpAll, Branch.ofJsons?, Expression.ofJson?_dump, hbody, hbranches]

end

/-! ### Programs -/

def Parameter.ofJson? : Json → Option Parameter
  | .object [("name", .string name), ("type_info", ascription)] =>
    return ⟨name, ← Ascription.ofJson? ascription⟩
  | _ => none

def Function.ofJson? : Json → Option Function
  | .object [("name", .string name), ("parameters", .array parameters), ("return_type", returns),
      ("body", .array body)] =>
    return ⟨name, ← parameters.mapM Parameter.ofJson?, ← optional? BaseType.ofJson? returns,
      ← Statement.ofJsons? body⟩
  | _ => none

def Item.ofJson? : Json → Option Item
  | .object [("Function", value)] => return function (← Function.ofJson? value)
  | .object [("Statement", value)] => return statement (← Statement.ofJson? value)
  | _ => none

def Program.ofJson? : Json → Option Program
  | .object [("items", .array items)] => return ⟨← items.mapM Item.ofJson?⟩
  | _ => none

/-- The program whose dump the text holds. -/
def Program.ofText? (text : String) : Option Program := do
  ofJson? (← Json.ofText? text)

theorem Parameter.ofJson?_dump (parameter : Parameter) :
    ofJson? parameter.dump = some parameter := by
  simp [dump, ofJson?, Ascription.ofJson?_dump]

theorem Function.ofJson?_dump (function : Function) : ofJson? function.dump = some function := by
  have hparameters := mapM_map Parameter.ofJson?_dump function.parameters
  have hreturns := optional?_optional BaseType.ofJson?_dump rfl function.returns
  have hbody := Statement.ofJsons?_dumpAll function.body
  simp [dump, ofJson?, hparameters, hreturns, hbody]

theorem Item.ofJson?_dump (item : Item) : ofJson? item.dump = some item := by
  cases item with
  | function value => simp [dump, ofJson?, Function.ofJson?_dump]
  | statement value => simp [dump, ofJson?, Statement.ofJson?_dump]

theorem Program.ofJson?_dump (program : Program) : ofJson? program.dump = some program := by
  simp [dump, ofJson?, mapM_map Item.ofJson?_dump]

theorem Program.ofText?_text_dump (program : Program) :
    ofText? program.dump.text = some program := by
  rw [ofText?, Json.ofText?_text]
  exact ofJson?_dump program

/-- The text of a dump is JSON from which the program is read back. A compilation that dumps returns
this text for the program of its source. -/
theorem Program.dump_readable (program : Program) :
    (∀ value, Json.Spells value program.dump.text.toList ↔ value = program.dump) ∧
      ofText? program.dump.text = some program ∧
      (∀ other : Program, other.dump.text = program.dump.text → other = program) ∧
      ∀ target source, parse source = .ok program →
        Settings.compile ⟨target, true⟩ source =
          .ok ⟨some program.dump.text, target.render program⟩ := by
  have hspells : Json.Spells program.dump program.dump.text.toList := spells_pretty 0 program.dump
  refine ⟨fun value => ⟨fun h => h.unique hspells, fun h => h ▸ hspells⟩,
    ofText?_text_dump program, fun other h => ?_, fun target source h => ?_⟩
  · have hother := ofText?_text_dump other
    rw [h, ofText?_text_dump program] at hother
    exact (Option.some.inj hother).symm
  · rw [Settings.compile, h]
    rfl

end Wordy
