import Wordy.Layout
import Wordy.Lexeme
import Wordy.Program.Basic

/-! Programs as source text: the standard phrases, one space between the pieces of a line, and four
more at its start for every block around it. The grouping of a chain needs no sign, since it is the
one that reading gives it. -/

namespace Wordy

open Lexeme

def Atom.lexeme : Atom → Lexeme
  | number digits => word digits
  | text contents => quotation contents
  | truth value => token (truthToken value)
  | reference name => word name

def Expression.lexemes : Expression → List Lexeme
  | atom value => [value.lexeme]
  | negation operand => token .notWord :: operand.lexemes
  | binary left operator right => left.lexeme :: token operator.token :: right.lexemes

def Ascription.lexemes : Ascription → List Lexeme
  | ⟨true, base⟩ => [token .mutableWord, token base.token]
  | ⟨false, base⟩ => [token base.token]

def Parameter.lexemes (parameter : Parameter) : List Lexeme :=
  word parameter.name :: token .asWord :: parameter.ascription.lexemes

def optionalLexemes (lexemes : α → List Lexeme) : Option α → List Lexeme
  | none => []
  | some value => lexemes value

def sourceLine (lexemes : List Lexeme) : Line := line (spaced lexemes)

mutual

def Statement.source : Statement → List Line
  | .declare name ascription value =>
    [sourceLine (token .defineVariable :: word name :: token .toBe ::
      optionalLexemes Ascription.lexemes ascription ++
      optionalLexemes (token .initializedTo :: Expression.lexemes ·) value)]
  | .change change target value =>
    [sourceLine (token change.token :: word target :: token change.connector :: value.lexemes)]
  | .print value => [sourceLine (token .print :: value.lexemes)]
  | .conditional branches none => Branch.source .ifWord branches ++ [sourceLine [token .endOfIf]]
  | .conditional branches (some body) =>
    Branch.source .ifWord branches ++
      sourceLine [token .otherwise, token .doWord] :: block (Statement.sourceAll body) ++
      [sourceLine [token .endOfIf]]
  | .whileLoop condition body =>
    sourceLine (token .whileWord :: condition.lexemes ++ [token .doWord]) ::
      block (Statement.sourceAll body) ++ [sourceLine [token .endOfWhile]]
  | .forLoop iterator lower upper body =>
    sourceLine (token .forWord :: word iterator :: token .fromWord :: lower.lexemes ++
      token .toWord :: upper.lexemes ++ [token .doWord]) ::
      block (Statement.sourceAll body) ++ [sourceLine [token .endOfFor]]
  | .call function arguments result =>
    [sourceLine (token .callFunction :: word function ::
      (if arguments.isEmpty then []
        else token .withArg :: commaSeparated (arguments.map Expression.lexemes)) ++
      optionalLexemes ([token .thenPutResultInto, word ·]) result)]
  | .giveBack value => [sourceLine (token .returnWord :: value.lexemes)]

def Statement.sourceAll : List Statement → List Line
  | [] => []
  | statement :: statements => statement.source ++ Statement.sourceAll statements

/-- The branches, of which the first opens with `opening`. -/
def Branch.source (opening : Token) : List Branch → List Line
  | [] => []
  | ⟨condition, body⟩ :: branches =>
    sourceLine (token opening :: condition.lexemes ++ [token .doWord]) ::
      block (Statement.sourceAll body) ++ Branch.source .butIf branches

end

def Function.source (function : Function) : List Line :=
  sourceLine (token .defineFunction :: word function.name ::
    (if function.parameters.isEmpty then []
      else token .withParam :: commaSeparated (function.parameters.map Parameter.lexemes)) ++
    optionalLexemes (fun base => [token .thatReturn, token base.token]) function.returns ++
    [token .doWord]) ::
    block (Statement.sourceAll function.body) ++ [sourceLine [token .endOfFunction]]

def Item.source : Item → List Line
  | function value => value.source
  | statement value => value.source

def Program.source (program : Program) : String :=
  layout "    " (program.items.flatMap Item.source)

end Wordy
