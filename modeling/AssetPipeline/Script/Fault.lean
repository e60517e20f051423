import AssetPipeline.Script.Token
import AssetPipeline.Text.Position

/-! What can be wrong with a pipeline description, and where. -/

namespace AssetPipeline.Script

/-- Types of the values that expressions have. -/
inductive ValueType where
  | string
  | number
  | boolean
  | list
  | rule
  | single
  | bundle
  deriving DecidableEq, Repr

def ValueType.describe : ValueType → String
  | .string => "string"
  | .number => "number"
  | .boolean => "boolean"
  | .list => "list"
  | .rule => "rule builder"
  | .single => "single builder"
  | .bundle => "bundle builder"

/-- What the grammar wants at a place. -/
inductive Expectation where
  | expression
  | bindingName
  | methodName
  | argumentsOfMethod
  | token (kind : TokenKind)
  deriving DecidableEq, Repr

def Expectation.describe : Expectation → String
  | .expression => "an expression"
  | .bindingName => "binding name"
  | .methodName => "method name"
  | .argumentsOfMethod => "'(' after method name"
  | .token kind => kind.describe

/-- Nesting allowed in one expression: parentheses, lists, arguments, links of a method chain and
operands of `+` each count one level. -/
def maxDepth : Nat := 256

inductive Problem where
  | unterminatedString
  | unterminatedComment
  | unexpectedCharacter (found : Char)
  /-- The grammar wants something else; no token is found at the end of the source. -/
  | expected (wanted : Expectation) (found : Option TokenKind)
  | tooDeep
  | unknownName (name : String)
  /-- A declaring verb stands without its argument. -/
  | uncalledVerb (name : String)
  | unknownFunction (name : String)
  | cannotAdd (left right : ValueType)
  | wrongCount (function : String) (wanted got : Nat)
  | wantsString (function : String) (got : ValueType)
  | wantsBoolean (function : String) (got : ValueType)
  | wantsTargets (got : ValueType)
  | wantsScalar (got : ValueType)
  | unknownMethod (receiver : ValueType) (name : String)
  | noMethods (receiver : ValueType) (name : String)
  deriving DecidableEq, Repr

def Problem.message : Problem → String
  | .unterminatedString => "unterminated string literal"
  | .unterminatedComment => "unterminated block comment"
  | .unexpectedCharacter found => "unexpected character '" ++ found.toString ++ "'"
  | .expected wanted (some found) => "expected " ++ wanted.describe ++ ", found " ++ found.describe
  | .expected wanted none => "expected " ++ wanted.describe ++ ", found end of input"
  | .tooDeep => "expression nests deeper than " ++ toString maxDepth ++ " levels"
  | .unknownName name => "unknown identifier '" ++ name ++ "'"
  | .uncalledVerb name => "'" ++ name ++ "' must be called, e.g. " ++ name ++ "('...')"
  | .unknownFunction name =>
    "unknown function '" ++ name ++ "'; only rule, single and bundle are available"
  | .cannotAdd left right => "cannot add " ++ left.describe ++ " and " ++ right.describe
  | .wrongCount function wanted got =>
    "'" ++ function ++ "' takes " ++ toString wanted ++ " argument(s), got " ++ toString got
  | .wantsString function got => "'" ++ function ++ "' expects a string, got " ++ got.describe
  | .wantsBoolean function got => "'" ++ function ++ "' expects a boolean, got " ++ got.describe
  | .wantsTargets got => "'to' expects a string or a list of strings, got " ++ got.describe
  | .wantsScalar got =>
    "'assign' value must be a string, number or boolean, got " ++ got.describe
  | .unknownMethod receiver name => receiver.describe ++ " has no method '" ++ name ++ "'"
  | .noMethods receiver name => "cannot call '" ++ name ++ "' on a " ++ receiver.describe

/-- A problem at a byte offset of the source. -/
structure Fault where
  offset : Nat
  problem : Problem
  deriving DecidableEq, Repr

/-- A problem as the reader of a description is told of it. -/
structure Error where
  position : Position
  problem : Problem
  deriving DecidableEq, Repr

def Fault.locate (source : String) (fault : Fault) : Error :=
  ⟨.ofOffset source fault.offset, fault.problem⟩

/-- A message with its line and column in front. -/
def located (position : Position) (message : String) : String :=
  toString position.line ++ ":" ++ toString position.column ++ ": " ++ message

def Error.message (error : Error) : String :=
  located error.position error.problem.message

end AssetPipeline.Script
