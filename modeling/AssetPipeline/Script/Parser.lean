import AssetPipeline.Script.Lexeme
import AssetPipeline.Script.Literal
import AssetPipeline.Script.Syntax

/-! Reading tokens as statements.

    program   := (';' | statement)*
    statement := (declare name '=' expr | expr) ';'?
    expr      := chain ('+' chain)*
    chain     := primary ('.' name '(' items ')')*
    primary   := text | number | boolean | name | name '(' items ')' | '[' items ']' | '(' expr ')'
    items     := (expr (',' expr)* ','?)?

Sums and chains nest to the left. Nesting is bounded, and every level of it is a level of recursion
here and in the evaluator; the length of a description is not bounded. -/

namespace AssetPipeline.Script.Parser

/-- What was read from the front of `tokens`, and the tokens that follow it. -/
structure Read (tokens : List Token) (α : Type) where
  value : α
  rest : List Token
  shorter : rest.length < tokens.length

/-- As `Read`, but perhaps nothing was taken. -/
structure ReadMany (tokens : List Token) (α : Type) where
  value : α
  rest : List Token
  notLonger : rest.length ≤ tokens.length

/-- The offset of the next token, or of the end of the source, which stands at byte `stop`. -/
def nextOffset (stop : Nat) : List Token → Nat
  | [] => stop
  | t :: _ => t.start

/-- The next token is not what the grammar wants. -/
def unexpected (stop : Nat) (wanted : Expectation) (tokens : List Token) : Fault :=
  ⟨nextOffset stop tokens, .expected wanted (tokens.head?.map (·.kind))⟩

/-- One level of nesting more, unless `depth` is the deepest. -/
def enter (depth offset : Nat) : Except Fault Nat :=
  if maxDepth ≤ depth then .error ⟨offset, .tooDeep⟩ else .ok (depth + 1)

/-- Takes a token of the given kind if the next one is. -/
def take? (kind : TokenKind) : (tokens : List Token) → Option (Read tokens Token)
  | [] => none
  | t :: rest => if t.kind = kind then some ⟨t, rest, by simp⟩ else none

def expect (stop : Nat) (kind : TokenKind) (wanted : Expectation) (tokens : List Token) :
    Except Fault (Read tokens Token) :=
  match take? kind tokens with
  | some read => .ok read
  | none => .error (unexpected stop wanted tokens)

mutual

def expr (stop depth : Nat) (tokens : List Token) : Except Fault (Read tokens Expr) := do
  let depth ← enter depth (nextOffset stop tokens)
  let ⟨first, rest, h⟩ ← chain stop depth tokens
  let ⟨value, rest', h'⟩ ← summands stop depth first rest
  return ⟨value, rest', by omega⟩
termination_by (tokens.length, 3)

/-- The operands after the first of a sum. -/
def summands (stop depth : Nat) (left : Expr) (tokens : List Token) :
    Except Fault (ReadMany tokens Expr) :=
  match tokens with
  | ⟨.plus, _, _⟩ :: tail => do
    let depth ← enter depth left.offset
    let ⟨right, rest, h⟩ ← chain stop depth tail
    let ⟨value, rest', h'⟩ ← summands stop depth (.sum left.offset left right) rest
    return ⟨value, rest', by simp only [List.length_cons]; omega⟩
  | tokens => return ⟨left, tokens, Nat.le_refl _⟩
termination_by (tokens.length, 0)

def chain (stop depth : Nat) (tokens : List Token) : Except Fault (Read tokens Expr) := do
  let ⟨receiver, rest, h⟩ ← primary stop depth tokens
  let ⟨value, rest', h'⟩ ← links stop depth receiver rest
  return ⟨value, rest', by omega⟩
termination_by (tokens.length, 2)

/-- The method calls that follow a receiver. -/
def links (stop depth : Nat) (receiver : Expr) (tokens : List Token) :
    Except Fault (ReadMany tokens Expr) :=
  match tokens with
  | ⟨.dot, _, _⟩ :: tail => do
    let depth ← enter depth receiver.offset
    let ⟨method, rest₁, h₁⟩ ← expect stop .name .methodName tail
    let ⟨_, rest₂, h₂⟩ ← expect stop .parenOpen .argumentsOfMethod rest₁
    let ⟨args, rest₃, h₃⟩ ← items stop depth .parenClose rest₂
    let ⟨value, rest₄, h₄⟩ ←
      links stop depth (.method method.start receiver method.text args) rest₃
    return ⟨value, rest₄, by simp only [List.length_cons]; omega⟩
  | tokens => return ⟨receiver, tokens, Nat.le_refl _⟩
termination_by (tokens.length, 0)

def primary (stop depth : Nat) (tokens : List Token) : Except Fault (Read tokens Expr) :=
  match tokens with
  | ⟨.text, raw, start⟩ :: tail => return ⟨.text start (Literal.unquote raw), tail, by simp⟩
  | ⟨.number, raw, start⟩ :: tail => return ⟨.number start (Literal.number raw), tail, by simp⟩
  | ⟨.yes, _, start⟩ :: tail => return ⟨.boolean start true, tail, by simp⟩
  | ⟨.no, _, start⟩ :: tail => return ⟨.boolean start false, tail, by simp⟩
  | ⟨.name, function, start⟩ :: ⟨.parenOpen, _, _⟩ :: tail => do
    let ⟨args, rest, h⟩ ← items stop depth .parenClose tail
    return ⟨.call start function args, rest, by simp only [List.length_cons]; omega⟩
  | ⟨.name, name, start⟩ :: tail => return ⟨.reference start name, tail, by simp⟩
  | ⟨.bracketOpen, _, start⟩ :: tail => do
    let ⟨values, rest, h⟩ ← items stop depth .bracketClose tail
    return ⟨.list start values, rest, by simp only [List.length_cons]; omega⟩
  | ⟨.parenOpen, _, start⟩ :: tail => do
    let ⟨inner, rest, h⟩ ← expr stop depth tail
    let ⟨_, rest', h'⟩ ← expect stop .parenClose (.token .parenClose) rest
    return ⟨inner.withOffset start, rest', by simp only [List.length_cons]; omega⟩
  | tokens => .error (unexpected stop .expression tokens)
termination_by (tokens.length, 1)

/-- Expressions between commas, up to the closing token. A comma may stand before it. -/
def items (stop depth : Nat) (close : TokenKind) (tokens : List Token) :
    Except Fault (Read tokens (List Expr)) :=
  match take? close tokens with
  | some ⟨_, rest, h⟩ => return ⟨[], rest, h⟩
  | none => do
    let ⟨first, rest, h⟩ ← expr stop depth tokens
    match take? .comma rest with
    | some ⟨_, rest', h'⟩ =>
      let ⟨others, rest'', h''⟩ ← items stop depth close rest'
      return ⟨first :: others, rest'', by omega⟩
    | none =>
      let ⟨_, rest', h'⟩ ← expect stop close (.token close) rest
      return ⟨[first], rest', by omega⟩
termination_by (tokens.length, 4)

end

/-- A binding or an expression, with the semicolon that may end it. -/
def statement (stop : Nat) (tokens : List Token) : Except Fault (Read tokens Stmt) := do
  let ⟨stmt, rest, h⟩ ← bare
  match take? .semicolon rest with
  | some ⟨_, rest', h'⟩ => return ⟨stmt, rest', by omega⟩
  | none => return ⟨stmt, rest, h⟩
where
  bare : Except Fault (Read tokens Stmt) :=
    match take? .declare tokens with
    | some ⟨_, rest₁, h₁⟩ => do
      let ⟨name, rest₂, h₂⟩ ← expect stop .name .bindingName rest₁
      let ⟨_, rest₃, h₃⟩ ← expect stop .equals (.token .equals) rest₂
      let ⟨value, rest₄, h₄⟩ ← expr stop 0 rest₃
      return ⟨.bind name.text value, rest₄, by omega⟩
    | none => do
      let ⟨value, rest, h⟩ ← expr stop 0 tokens
      return ⟨.expr value, rest, h⟩

def program (stop : Nat) (tokens : List Token) : Except Fault (List Stmt) :=
  match tokens with
  | [] => return []
  | t :: tail =>
    if t.kind = .semicolon then program stop tail
    else do
      let ⟨stmt, rest, _h⟩ ← statement stop (t :: tail)
      return stmt :: (← program stop rest)
termination_by tokens.length
decreasing_by
  · simp
  · exact _h

end Parser

/-- The statements of a source, or the first thing that is wrong with its form. -/
def parse (source : String) : Except Fault (List Stmt) := do
  Parser.program source.utf8ByteSize (← tokenize source)

end AssetPipeline.Script
