import Wordy.Json
import Wordy.Program.Basic

/-! Programs as JSON. A sum is an object with one member, named for the alternative; a statement is
an object whose member `type` names its form. -/

namespace Wordy

open Json

namespace Atom

def dump : Atom → Json
  | number digits => object [("Number", string digits)]
  | text contents => object [("String", string contents)]
  | truth value => object [("Boolean", boolean value)]
  | reference name => object [("Variable", string name)]

end Atom

def BinaryOperator.name : BinaryOperator → String
  | plus => "Plus"
  | minus => "Minus"
  | multiply => "Multiply"
  | divide => "Divide"
  | modulo => "Modulo"
  | conjunction => "And"
  | disjunction => "Or"
  | equal => "EqualTo"
  | notEqual => "NotEqualTo"
  | greaterOrEqual => "GreaterThanOrEqualTo"
  | greater => "GreaterThan"
  | lessOrEqual => "LessThanOrEqualTo"
  | less => "LessThan"

namespace Expression

def dump : Expression → Json
  | atom value => object [("Atom", value.dump)]
  | negation operand =>
    object [("Unary", object [("operator", string "Not"), ("operand", operand.dump)])]
  | binary left operator right =>
    object [("Binary", object
      [("left", left.dump), ("operator", string operator.name), ("right", right.dump)])]

end Expression

def BaseType.dump : BaseType → Json
  | number => string "Number"
  | text => string "String"
  | truth => string "Boolean"

def Ascription.dump (ascription : Ascription) : Json :=
  object [("mutable", boolean ascription.isMutable), ("variable_type", ascription.base.dump)]

def Change.form : Change → String
  | assign => "AssignmentSet"
  | increase => "AssignmentIncrease"
  | decrease => "AssignmentDecrease"

mutual

def Statement.dump : Statement → Json
  | .declare name ascription value => object
      [("type", string "VariableDeclaration"), ("name", string name),
       ("type_info", optional Ascription.dump ascription),
       ("initial_value", optional Expression.dump value)]
  | .change change target value => object
      [("type", string change.form), ("target", string target), ("value", value.dump)]
  | .print value => object [("type", string "PrintStatement"), ("value", value.dump)]
  | .conditional branches none => object
      [("type", string "IfBlock"), ("branches", array (Branch.dumpAll branches)),
       ("otherwise", null)]
  | .conditional branches (some body) => object
      [("type", string "IfBlock"), ("branches", array (Branch.dumpAll branches)),
       ("otherwise", array (Statement.dumpAll body))]
  | .whileLoop condition body => object
      [("type", string "WhileBlock"), ("condition", condition.dump),
       ("body", array (Statement.dumpAll body))]
  | .forLoop iterator lower upper body => object
      [("type", string "ForBlock"), ("iterator", string iterator), ("from", lower.dump),
       ("to", upper.dump), ("body", array (Statement.dumpAll body))]
  | .call function arguments result => object
      [("type", string "FunctionCall"), ("name", string function),
       ("arguments", array (arguments.map Expression.dump)),
       ("result_target", optional string result)]
  | .giveBack value => object [("type", string "FunctionReturn"), ("value", value.dump)]

def Statement.dumpAll : List Statement → List Json
  | [] => []
  | statement :: statements => statement.dump :: Statement.dumpAll statements

def Branch.dumpAll : List Branch → List Json
  | [] => []
  | ⟨condition, body⟩ :: branches =>
    object [("condition", condition.dump), ("body", array (Statement.dumpAll body))] ::
      Branch.dumpAll branches

end

def Parameter.dump (parameter : Parameter) : Json :=
  object [("name", string parameter.name), ("type_info", parameter.ascription.dump)]

def Function.dump (function : Function) : Json :=
  object
    [("name", string function.name),
     ("parameters", array (function.parameters.map Parameter.dump)),
     ("return_type", optional BaseType.dump function.returns),
     ("body", array (Statement.dumpAll function.body))]

def Item.dump : Item → Json
  | function value => object [("Function", value.dump)]
  | statement value => object [("Statement", value.dump)]

def Program.dump (program : Program) : Json :=
  object [("items", array (program.items.map Item.dump))]

end Wordy
