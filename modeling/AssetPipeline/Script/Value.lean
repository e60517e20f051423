import AssetPipeline.Declaration
import AssetPipeline.Number.Shortest
import AssetPipeline.Script.Fault

/-! Values of expressions. A builder is a handle: the index of its declaration among those of its
kind. -/

namespace AssetPipeline.Script

inductive Value where
  | string (text : String)
  | number (value : Float)
  | boolean (value : Bool)
  | list (items : List Value)
  | rule (index : Nat)
  | single (index : Nat)
  | bundle (index : Nat)

namespace Value

def type : Value → ValueType
  | string _ => .string
  | number _ => .number
  | boolean _ => .boolean
  | list _ => .list
  | rule _ => .rule
  | single _ => .single
  | bundle _ => .bundle

/-- A scalar as text, the form in which it is joined to a string or assigned to a variable. -/
def scalarText? : Value → Option String
  | string text => some text
  | number value => some (numberText value)
  | boolean value => some (if value then "true" else "false")
  | _ => none

/-- Numbers are added. As soon as one side is a string, scalars are joined as text. -/
def add (left right : Value) : Except Problem Value :=
  let refused := .error (.cannotAdd left.type right.type)
  match left, right with
  | number a, number b => .ok (number (a + b))
  | string a, right =>
    match right.scalarText? with
    | some b => .ok (string (a ++ b))
    | none => refused
  | left, string b =>
    match left.scalarText? with
    | some a => .ok (string (a ++ b))
    | none => refused
  | _, _ => refused

end Value

/-! Arguments, as a function or method of a given name takes them. -/

namespace Arguments

def one (function : String) : List Value → Except Problem Value
  | [value] => .ok value
  | args => .error (.wrongCount function 1 args.length)

def string (function : String) : Value → Except Problem String
  | .string text => .ok text
  | value => .error (.wantsString function value.type)

def boolean (function : String) : Value → Except Problem Bool
  | .boolean value => .ok value
  | value => .error (.wantsBoolean function value.type)

def oneString (function : String) (args : List Value) : Except Problem String := do
  string function (← one function args)

def oneBoolean (function : String) (args : List Value) : Except Problem Bool := do
  boolean function (← one function args)

def strings (function : String) : List Value → Except Problem (List String)
  | [] => .ok []
  | value :: values => return (← string function value) :: (← strings function values)

/-- Targets of a bundle: one string or a list of strings. -/
def targets (args : List Value) : Except Problem (List String) := do
  match ← one "to" args with
  | .string text => .ok [text]
  | .list items => strings "to" items
  | value => .error (.wantsTargets value.type)

/-- Key and value of a variable; the value may be any scalar. -/
def assignment : List Value → Except Problem (String × String)
  | [key, value] => do
    let key ← string "assign" key
    match value.scalarText? with
    | some text => .ok (key, text)
    | none => .error (.wantsScalar value.type)
  | args => .error (.wrongCount "assign" 2 args.length)

end Arguments

end AssetPipeline.Script
