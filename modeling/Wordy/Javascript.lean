import Wordy.Layout
import Wordy.Program.Basic
import Wordy.Text.Quoted

/-! Programs as JavaScript that prints through a `VM` object. An operand that is an operation itself
is put in parentheses, so that the precedence of the operators never regroups a chain. -/

namespace Wordy

namespace Atom

def javascript : Atom → String
  | number digits => digits
  | text contents => Text.quote contents
  | truth true => "true"
  | truth false => "false"
  | reference name => name

end Atom

namespace BinaryOperator

def symbol : BinaryOperator → String
  | plus => "+"
  | minus => "-"
  | multiply => "*"
  | divide => "/"
  | modulo => "%"
  | conjunction => "&&"
  | disjunction => "||"
  | equal => "==="
  | notEqual => "!=="
  | greaterOrEqual => ">="
  | greater => ">"
  | lessOrEqual => "<="
  | less => "<"

end BinaryOperator

namespace Expression

def parenthesized (isOperation : Bool) (text : String) : String :=
  if isOperation then "(" ++ text ++ ")" else text

def javascript : Expression → String
  | atom value => value.javascript
  | negation operand => "!" ++ parenthesized operand.isOperation operand.javascript
  | binary left operator right =>
    left.javascript ++ " " ++ operator.symbol ++ " " ++
      parenthesized right.isOperation right.javascript

end Expression

def Change.symbol : Change → String
  | assign => "="
  | increase => "+="
  | decrease => "-="

mutual

def Statement.javascript : Statement → List Line
  | .declare name _ none => [line ("var " ++ name ++ ";")]
  | .declare name _ (some value) => [line ("var " ++ name ++ " = " ++ value.javascript ++ ";")]
  | .change change target value =>
    [line (target ++ " " ++ change.symbol ++ " " ++ value.javascript ++ ";")]
  | .print value => [line ("VM.print(" ++ value.javascript ++ ");")]
  | .conditional branches none => Branch.javascript "if (" branches ++ [line "\x7d"]
  | .conditional branches (some body) =>
    Branch.javascript "if (" branches ++
      line "\x7d else \x7b" :: block (Statement.javascriptAll body) ++ [line "\x7d"]
  | .whileLoop condition body =>
    line ("while (" ++ condition.javascript ++ ") \x7b") ::
      block (Statement.javascriptAll body) ++ [line "\x7d"]
  | .forLoop iterator lower upper body =>
    line ("for (var " ++ iterator ++ " = " ++ lower.javascript ++ "; " ++
      iterator ++ " <= " ++ upper.javascript ++ "; " ++ iterator ++ "++) \x7b") ::
      block (Statement.javascriptAll body) ++ [line "\x7d"]
  | .call function arguments none =>
    [line (function ++ "(" ++ ", ".intercalate (arguments.map Expression.javascript) ++ ");")]
  | .call function arguments (some result) =>
    [line (result ++ " = " ++ function ++ "(" ++
      ", ".intercalate (arguments.map Expression.javascript) ++ ");")]
  | .giveBack value => [line ("return " ++ value.javascript ++ ";")]

def Statement.javascriptAll : List Statement → List Line
  | [] => []
  | statement :: statements => statement.javascript ++ Statement.javascriptAll statements

/-- The branches, of which the first opens with `opening` and each other closes the one before. -/
def Branch.javascript (opening : String) : List Branch → List Line
  | [] => []
  | ⟨condition, body⟩ :: branches =>
    line (opening ++ condition.javascript ++ ") \x7b") :: block (Statement.javascriptAll body) ++
      Branch.javascript "\x7d else if (" branches

end

def Function.javascript (function : Function) : List Line :=
  line ("function " ++ function.name ++ " (" ++
    ", ".intercalate (function.parameters.map (·.name)) ++ ") \x7b") ::
    block (Statement.javascriptAll function.body) ++ [line "\x7d"]

def Item.javascript : Item → List Line
  | function value => value.javascript
  | statement value => value.javascript

def Program.javascript (program : Program) : String :=
  layout "\t" (program.items.flatMap Item.javascript)

end Wordy
