/-! Tokens of a pipeline description: punctuation, declaration words, booleans, names, numbers and
quoted strings. -/

namespace AssetPipeline.Script

inductive TokenKind where
  | parenOpen
  | parenClose
  | bracketOpen
  | bracketClose
  | comma
  | dot
  | semicolon
  | equals
  | plus
  /-- `var`, `let` and `const` all introduce a binding. -/
  | declare
  | yes
  | no
  | name
  | number
  | text
  deriving DecidableEq, Repr

/-- How an error message calls a token of this kind. -/
def TokenKind.describe : TokenKind → String
  | .parenOpen => "'('"
  | .parenClose => "')'"
  | .bracketOpen => "'['"
  | .bracketClose => "']'"
  | .comma => "','"
  | .dot => "'.'"
  | .semicolon => "';'"
  | .equals => "'='"
  | .plus => "'+'"
  | .declare => "declaration keyword"
  | .yes => "boolean"
  | .no => "boolean"
  | .name => "identifier"
  | .number => "number"
  | .text => "string"

/-- A token with the text it was read from and the byte offset of its first character. -/
structure Token where
  kind : TokenKind
  text : String
  start : Nat
  deriving DecidableEq, Repr

/-- The byte offset after the token's last character. -/
def Token.stop (t : Token) : Nat :=
  t.start + t.text.utf8ByteSize

end AssetPipeline.Script
