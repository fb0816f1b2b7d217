import Wordy.Expression.Read
import Wordy.Program.Basic

/-! Reading a program. A block is read statement by statement for as long as a word comes next that
can open one, so that the reader of a statement takes the reader of the blocks in it. -/

namespace Wordy

open Reader

def BaseType.read (book : Phrasebook) : Reader BaseType := take book token all

def Ascription.read? (book : Phrasebook) : Reader (Option Ascription) := do
  if ← accept book .mutableWord then
    return some ⟨true, ← BaseType.read book⟩
  else
    return (← take? book BaseType.token BaseType.all).map (⟨false, ·⟩)

inductive Opening
  | declare | change (change : Change) | print | conditional | whileLoop | forLoop | call | giveBack
deriving DecidableEq, Repr

namespace Opening

def all : List Opening :=
  [declare, change .assign, change .increase, change .decrease, print, conditional, whileLoop,
   forLoop, call, giveBack]

def token : Opening → Token
  | declare => .defineVariable
  | change c => c.token
  | print => .print
  | conditional => .ifWord
  | whileLoop => .whileWord
  | forLoop => .forWord
  | call => .callFunction
  | giveBack => .returnWord

end Opening

/-- Reads the token that ends a block. A function that is declared instead is told apart. -/
def closeBlock (book : Phrasebook) (closing : Token) : Reader Unit := do
  if ← accept book closing then
    return ()
  else
    let failure ← unexpected book
    match ← peek book id [.defineFunction] with
    | some _ => fail .nestedFunction (← ahead)
    | none => throw failure

namespace Statement

def readDeclaration (book : Phrasebook) : Reader Statement := do
  let start ← ahead
  let name ← Reader.name book
  expect book .toBe
  let ascription ← Ascription.read? book
  let value ← optional (return (← take? book id [.equalTo, .initializedTo]).isSome)
    (Expression.read book)
  if ascription.isNone && value.isNone then
    fail (.untypedVariable name) start
  else
    return declare name ascription value

def readChange (book : Phrasebook) (kind : Change) : Reader Statement := do
  let target ← Reader.name book
  expect book kind.connector
  return change kind target (← Expression.read book)

def readBranch (book : Phrasebook) (body : Reader (List Statement)) : Reader Branch := do
  let condition ← Expression.read book
  expect book .doWord
  return ⟨condition, ← body⟩

def readConditional (book : Phrasebook) (body : Reader (List Statement)) : Reader Statement := do
  let branches ← separated (accept book .butIf) (readBranch book body)
  let otherwise ← optional (accept book .otherwise) do
    expect book .doWord
    body
  closeBlock book .endOfIf
  return conditional branches otherwise

def readWhileLoop (book : Phrasebook) (body : Reader (List Statement)) : Reader Statement := do
  let loop ← readBranch book body
  closeBlock book .endOfWhile
  return whileLoop loop.condition loop.body

def readForLoop (book : Phrasebook) (body : Reader (List Statement)) : Reader Statement := do
  let iterator ← Reader.name book
  expect book .fromWord
  let lower ← Expression.read book
  expect book .toWord
  let upper ← Expression.read book
  expect book .doWord
  let body ← body
  closeBlock book .endOfFor
  return forLoop iterator lower upper body

def readCall (book : Phrasebook) : Reader Statement := do
  let function ← Reader.name book
  let arguments ← optional (accept book .withArg)
    (separated (accept book .comma) (Expression.read book))
  let result ← optional (accept book .thenPutResultInto) (Reader.name book)
  return call function (arguments.getD []) result

/-- Reads the rest of a statement after the token that opens it. -/
def read (book : Phrasebook) (body : Reader (List Statement)) : Opening → Reader Statement
  | .declare => readDeclaration book
  | .change kind => readChange book kind
  | .print => return print (← Expression.read book)
  | .conditional => readConditional book body
  | .whileLoop => readWhileLoop book body
  | .forLoop => readForLoop book body
  | .call => readCall book
  | .giveBack => return giveBack (← Expression.read book)

/-- Reads statements while one comes next. Each statement of the block or inside it takes one from
the limit, and at least one character from the text. -/
def readBlock (book : Phrasebook) : Nat → Reader (List Statement)
  | 0 => do fail .stalled (← ahead)
  | limit + 1 => do
    match ← take? book Opening.token Opening.all with
    | none => return []
    | some opening =>
      let first ← read book (readBlock book limit) opening
      return first :: (← readBlock book limit)

end Statement

def Parameter.read (book : Phrasebook) (function : String) : Reader Parameter := do
  let start ← ahead
  let name ← Reader.name book
  expect book .asWord
  match ← Ascription.read? book with
  | some ascription => return ⟨name, ascription⟩
  | none => fail (.untypedParameter name function) start

def Function.read (book : Phrasebook) (body : Reader (List Statement)) : Reader Function := do
  let name ← Reader.name book
  let parameters ← optional (accept book .withParam)
    (separated (accept book .comma) (Parameter.read book name))
  let returns ← optional (accept book .thatReturn) (BaseType.read book)
  expect book .doWord
  let body ← body
  closeBlock book .endOfFunction
  return ⟨name, parameters.getD [], returns, body⟩

namespace Program

inductive Opening
  | statement (opening : Wordy.Opening) | function | finish
deriving DecidableEq, Repr

namespace Opening

def all : List Opening := Wordy.Opening.all.map statement ++ [function, finish]

def token : Opening → Token
  | statement opening => opening.token
  | function => .defineFunction
  | finish => .endOfInput

end Opening

/-- Reads items up to the end of the text, under a limit like that of a block. -/
def readItems (book : Phrasebook) : Nat → Reader (List Item)
  | 0 => do fail .stalled (← ahead)
  | limit + 1 => do
    match ← take book Opening.token Opening.all with
    | .finish => return []
    | .function =>
      let first ← Function.read book (Statement.readBlock book limit)
      return .function first :: (← readItems book limit)
    | .statement opening =>
      let first ← Statement.read book (Statement.readBlock book limit) opening
      return .statement first :: (← readItems book limit)

def read (book : Phrasebook) : Reader Program := do
  return ⟨← readItems book ((← get).rest.length + 1)⟩

end Program

end Wordy
