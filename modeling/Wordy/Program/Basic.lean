import Wordy.Expression.Basic

/-! Programs: functions and statements in the order of the source. -/

namespace Wordy

inductive BaseType
  | number | text | truth
deriving DecidableEq, Repr

namespace BaseType

def all : List BaseType := [number, text, truth]

def token : BaseType → Token
  | number => .numberType
  | text => .stringType
  | truth => .booleanType

end BaseType

structure Ascription where
  isMutable : Bool
  base : BaseType
deriving DecidableEq, Repr

inductive Change
  | assign | increase | decrease
deriving DecidableEq, Repr

namespace Change

def token : Change → Token
  | assign => .setWord
  | increase => .increase
  | decrease => .decrease

def connector : Change → Token
  | assign => .toBe
  | increase => .byWord
  | decrease => .byWord

end Change

mutual

inductive Statement
  | declare (name : String) (ascription : Option Ascription) (value : Option Expression)
  | change (change : Change) (target : String) (value : Expression)
  | print (value : Expression)
  | conditional (branches : List Branch) (otherwise : Option (List Statement))
  | whileLoop (condition : Expression) (body : List Statement)
  /-- The iterator takes every value from `lower` up to and including `upper`. -/
  | forLoop (iterator : String) (lower upper : Expression) (body : List Statement)
  | call (function : String) (arguments : List Expression) (result : Option String)
  | giveBack (value : Expression)

structure Branch where
  condition : Expression
  body : List Statement

end

structure Parameter where
  name : String
  ascription : Ascription
deriving DecidableEq, Repr

structure Function where
  name : String
  parameters : List Parameter
  returns : Option BaseType
  body : List Statement

inductive Item
  | function (function : Function)
  | statement (statement : Statement)

structure Program where
  items : List Item

end Wordy
