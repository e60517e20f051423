/-! Expressions and statements of a description. Each expression knows the byte offset that errors
about it are reported at. -/

namespace AssetPipeline.Script

inductive Expr where
  | text (offset : Nat) (value : String)
  | number (offset : Nat) (value : Float)
  | boolean (offset : Nat) (value : Bool)
  | reference (offset : Nat) (name : String)
  | list (offset : Nat) (items : List Expr)
  | call (offset : Nat) (function : String) (args : List Expr)
  | method (offset : Nat) (receiver : Expr) (name : String) (args : List Expr)
  | sum (offset : Nat) (left right : Expr)
  deriving Repr

namespace Expr

def offset : Expr → Nat
  | text offset _ => offset
  | number offset _ => offset
  | boolean offset _ => offset
  | reference offset _ => offset
  | list offset _ => offset
  | call offset _ _ => offset
  | method offset _ _ _ => offset
  | sum offset _ _ => offset

/-- The same expression, reported at another offset. -/
def withOffset (offset : Nat) : Expr → Expr
  | text _ value => text offset value
  | number _ value => number offset value
  | boolean _ value => boolean offset value
  | reference _ name => reference offset name
  | list _ items => list offset items
  | call _ function args => call offset function args
  | method _ receiver name args => method offset receiver name args
  | sum _ left right => sum offset left right

@[simp] theorem offset_withOffset (offset : Nat) (e : Expr) :
    (e.withOffset offset).offset = offset := by
  cases e <;> rfl

end Expr

inductive Stmt where
  | bind (name : String) (value : Expr)
  | expr (value : Expr)
  deriving Repr

end AssetPipeline.Script
