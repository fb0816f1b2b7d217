/-! The kinds of word that the language gives a meaning of its own. Names, numbers and quoted texts
are none of them: those are read as they stand. -/

namespace Wordy

/-- All but `endOfInput` are spelled by a phrase; that one stands where only blanks are left. -/
inductive Token
  | comma | plus | andWord | asWord | booleanType | butIf | byWord | callFunction | decrease
  | defineFunction | defineVariable | divide | doWord | endOfFor | endOfFunction | endOfIf
  | endOfWhile | equalTo | falseWord | forWord | fromWord | greaterThanOrEqualTo | greaterThan
  | ifWord | increase | initializedTo | lessThanOrEqualTo | lessThan | minus | modulo | multiply
  | mutableWord | notEqualTo | notWord | numberType | orWord | otherwise | print | returnWord
  | setWord | stringType | thatReturn | thenPutResultInto | toWord | toBe | trueWord | whileWord
  | withParam | withArg | endOfInput
deriving DecidableEq, Repr

namespace Token

/-- The name under which a token without a phrase is reported. -/
def name : Token → String
  | comma => "Comma"
  | plus => "Plus"
  | andWord => "And"
  | asWord => "As"
  | booleanType => "VariableTypeBoolean"
  | butIf => "ButIf"
  | byWord => "By"
  | callFunction => "FunctionCall"
  | decrease => "Decrease"
  | defineFunction => "FunctionDeclaration"
  | defineVariable => "VariableDeclaration"
  | divide => "Divide"
  | doWord => "Do"
  | endOfFor => "EndOfFor"
  | endOfFunction => "EndOfFunction"
  | endOfIf => "EndOfIf"
  | endOfWhile => "EndOfWhile"
  | equalTo => "EqualTo"
  | falseWord => "BooleanValueFalse"
  | forWord => "For"
  | fromWord => "From"
  | greaterThanOrEqualTo => "GreaterThanOrEqualTo"
  | greaterThan => "GreaterThan"
  | ifWord => "If"
  | increase => "Increase"
  | initializedTo => "InitializedTo"
  | lessThanOrEqualTo => "LessThanOrEqualTo"
  | lessThan => "LessThan"
  | minus => "Minus"
  | modulo => "Modulo"
  | multiply => "Multiply"
  | mutableWord => "Mutable"
  | notEqualTo => "NotEqualTo"
  | notWord => "Not"
  | numberType => "VariableTypeNumber"
  | orWord => "Or"
  | otherwise => "Otherwise"
  | print => "Print"
  | returnWord => "Return"
  | setWord => "Set"
  | stringType => "VariableTypeString"
  | thatReturn => "ThatReturn"
  | thenPutResultInto => "ThenPutResultInto"
  | toWord => "To"
  | toBe => "ToBe"
  | trueWord => "BooleanValueTrue"
  | whileWord => "While"
  | withParam => "WithParam"
  | withArg => "WithArg"
  | endOfInput => "EndOfInput"

/-- The tokens that have a phrase, in the order of the standard phrases. -/
def spelled : List Token :=
  [comma, plus, andWord, asWord, booleanType, butIf, byWord, callFunction, decrease,
   defineFunction, defineVariable, divide, doWord, endOfFor, endOfFunction, endOfIf, endOfWhile,
   equalTo, falseWord, forWord, fromWord, greaterThanOrEqualTo, greaterThan, ifWord, increase,
   initializedTo, lessThanOrEqualTo, lessThan, minus, modulo, multiply, mutableWord, notEqualTo,
   notWord, numberType, orWord, otherwise, print, returnWord, setWord, stringType, thatReturn,
   thenPutResultInto, toWord, toBe, trueWord, whileWord, withParam, withArg]

def phrase : Token → String
  | comma => ","
  | plus => "plus"
  | andWord => "and"
  | asWord => "as"
  | booleanType => "boolean"
  | butIf => "but if"
  | byWord => "by"
  | callFunction => "call function"
  | decrease => "decrease"
  | defineFunction => "define function"
  | defineVariable => "define variable"
  | divide => "divide"
  | doWord => "do"
  | endOfFor => "end of for"
  | endOfFunction => "end of function"
  | endOfIf => "end of if"
  | endOfWhile => "end of while"
  | equalTo => "equal to"
  | falseWord => "false"
  | forWord => "for"
  | fromWord => "from"
  | greaterThanOrEqualTo => "greater than or equal to"
  | greaterThan => "greater than"
  | ifWord => "if"
  | increase => "increase"
  | initializedTo => "initialized to"
  | lessThanOrEqualTo => "less than or equal to"
  | lessThan => "less than"
  | minus => "minus"
  | modulo => "modulo"
  | multiply => "multiply"
  | mutableWord => "mutable"
  | notEqualTo => "not equal to"
  | notWord => "not"
  | numberType => "number"
  | orWord => "or"
  | otherwise => "otherwise"
  | print => "print"
  | returnWord => "return"
  | setWord => "set"
  | stringType => "string"
  | thatReturn => "that return"
  | thenPutResultInto => "then put result into"
  | toWord => "to"
  | toBe => "to be"
  | trueWord => "true"
  | whileWord => "while"
  | withParam => "with param"
  | withArg => "with arg"
  | endOfInput => "(EOF)"

end Token

end Wordy
