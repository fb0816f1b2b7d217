import Wordy.Token

/-! Expressions. The left operand of a binary operator is a single atom, so that an expression is a
chain of operators that ends in an atom, and everything after an operator is its right operand. -/

namespace Wordy

inductive Atom
  /-- A number keeps the digits it was written with. -/
  | number (digits : String)
  | text (contents : String)
  | truth (value : Bool)
  | reference (name : String)
deriving DecidableEq, Repr

def Atom.truthToken : Bool → Token
  | true => .trueWord
  | false => .falseWord

inductive BinaryOperator
  | plus | minus | multiply | divide | modulo | conjunction | disjunction | equal | notEqual
  | greaterOrEqual | greater | lessOrEqual | less
deriving DecidableEq, Repr

namespace BinaryOperator

/-- In the order in which they are looked for: "greater than or equal to" before "greater than". -/
def all : List BinaryOperator :=
  [plus, minus, multiply, divide, modulo, conjunction, disjunction, equal, notEqual,
   greaterOrEqual, greater, lessOrEqual, less]

def token : BinaryOperator → Token
  | plus => .plus
  | minus => .minus
  | multiply => .multiply
  | divide => .divide
  | modulo => .modulo
  | conjunction => .andWord
  | disjunction => .orWord
  | equal => .equalTo
  | notEqual => .notEqualTo
  | greaterOrEqual => .greaterThanOrEqualTo
  | greater => .greaterThan
  | lessOrEqual => .lessThanOrEqualTo
  | less => .lessThan

end BinaryOperator

inductive Expression
  | atom (atom : Atom)
  | negation (operand : Expression)
  | binary (left : Atom) (operator : BinaryOperator) (right : Expression)
deriving DecidableEq, Repr

namespace Expression

def isOperation : Expression → Bool
  | atom _ => false
  | _ => true

def operators : Expression → Nat
  | atom _ => 0
  | negation operand => operand.operators + 1
  | binary _ _ right => right.operators + 1

end Expression

end Wordy
