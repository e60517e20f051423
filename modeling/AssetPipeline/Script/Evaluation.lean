import AssetPipeline.Script.Parser
import AssetPipeline.Script.Value

/-! Evaluation of a description. The only callable functions declare a rule or a builder, and the
only methods fill one in, so all that a description can do is declare. -/

namespace AssetPipeline

open Script (Problem Value Arguments.oneString Arguments.oneBoolean Arguments.targets
  Arguments.assignment)

/-- The rule after a method call. -/
def RuleDecl.call (r : RuleDecl) (method : String) (args : List Value) : Except Problem RuleDecl :=
  match method with
  | "command" => return r.withCommand (← Arguments.oneString method args)
  | _ => .error (.unknownMethod .rule method)

/-- The builder after a method call. -/
def Single.call (s : Single) (method : String) (args : List Value) : Except Problem Single :=
  match method with
  | "fromBuild" => return s.fromBuild (← Arguments.oneBoolean method args)
  | "to" => return s.withTarget (← Arguments.oneString method args)
  | "toExt" => return s.withExtension (← Arguments.oneString method args)
  | "assign" => do
    let (key, value) ← Arguments.assignment args
    return s.assign key value
  | "using" => return s.withRule (← Arguments.oneString method args)
  | _ => .error (.unknownMethod .single method)

/-- The builder after a method call. -/
def Bundle.call (b : Bundle) (method : String) (args : List Value) : Except Problem Bundle :=
  match method with
  | "fromBuild" => return b.fromBuild (← Arguments.oneBoolean method args)
  | "to" => return b.addTargets (← Arguments.targets args)
  | "assign" => do
    let (key, value) ← Arguments.assignment args
    return b.assign key value
  | "using" => return b.withRule (← Arguments.oneString method args)
  | _ => .error (.unknownMethod .bundle method)

namespace Script

/-- The functions that a description can call. -/
inductive Verb where
  | rule
  | single
  | bundle
  deriving DecidableEq, Repr

def Verb.ofName? : String → Option Verb
  | "rule" => some .rule
  | "single" => some .single
  | "bundle" => some .bundle
  | _ => none

/-- Adds a declaration at the end of those of its kind. Its value is the handle of it. -/
def Verb.declare (verb : Verb) (text : String) (d : Declarations) : Value × Declarations :=
  match verb with
  | .rule => (.rule d.rules.length, { d with rules := d.rules ++ [{ name := text }] })
  | .single => (.single d.singles.length, { d with singles := d.singles ++ [{ pattern := text }] })
  | .bundle => (.bundle d.bundles.length, { d with bundles := d.bundles ++ [{ pattern := text }] })

/-- The list with the item at `index` replaced by what `f` makes of it. -/
def updateAt {α ε : Type} (f : α → Except ε α) : List α → Nat → Except ε (List α)
  | [], _ => .ok []
  | item :: items, 0 => return (← f item) :: items
  | item :: items, index + 1 => return item :: (← updateAt f items index)

/-- A method call. The receiver's declaration is filled in, and calls can be chained on the
receiver, which is the value. -/
def callMethod (receiver : Value) (method : String) (args : List Value) (d : Declarations) :
    Except Problem (Value × Declarations) :=
  match receiver with
  | .rule index => return (receiver, { d with rules := ← updateAt (·.call method args) d.rules index })
  | .single index =>
    return (receiver, { d with singles := ← updateAt (·.call method args) d.singles index })
  | .bundle index =>
    return (receiver, { d with bundles := ← updateAt (·.call method args) d.bundles index })
  | other => .error (.noMethods other.type method)

/-- Values by name; a later binding of a name hides an earlier one. -/
abbrev Bindings := List (String × Value)

def Bindings.find (bindings : Bindings) (name : String) : Except Problem Value :=
  match bindings.lookup name with
  | some value => .ok value
  | none =>
    match Verb.ofName? name with
    | some _ => .error (.uncalledVerb name)
    | none => .error (.unknownName name)

/-- The declarations so far, until a fault ends the evaluation. -/
abbrev Evaluation := StateT Declarations (Except Fault)

/-- A step whose problem is reported at `offset`. -/
def atOffset {α : Type} (offset : Nat) (step : Except Problem α) : Evaluation α :=
  match step with
  | .ok value => pure value
  | .error problem => throw ⟨offset, problem⟩

mutual

def eval (bindings : Bindings) : Expr → Evaluation Value
  | .text _ value => pure (.string value)
  | .number _ value => pure (.number value)
  | .boolean _ value => pure (.boolean value)
  | .reference offset name => atOffset offset (bindings.find name)
  | .list _ items => return .list (← evalAll bindings items)
  | .sum offset left right => do
    let left ← eval bindings left
    let right ← eval bindings right
    atOffset offset (left.add right)
  | .call offset function args =>
    match Verb.ofName? function with
    | none => throw ⟨offset, .unknownFunction function⟩
    | some verb => do
      let args ← evalAll bindings args
      let text ← atOffset offset (Arguments.oneString function args)
      let (handle, declared) := verb.declare text (← get)
      set declared
      return handle
  | .method offset receiver name args => do
    let receiver ← eval bindings receiver
    let args ← evalAll bindings args
    let (value, declared) ← atOffset offset (callMethod receiver name args (← get))
    set declared
    return value

/-- Values of expressions, evaluated from left to right. -/
def evalAll (bindings : Bindings) : List Expr → Evaluation (List Value)
  | [] => pure []
  | item :: items => return (← eval bindings item) :: (← evalAll bindings items)

end

/-- Runs statements one after another. -/
def run (bindings : Bindings) : List Stmt → Evaluation Unit
  | [] => pure ()
  | .bind name value :: rest => do
    let value ← eval bindings value
    run ((name, value) :: bindings) rest
  | .expr value :: rest => do
    let _ ← eval bindings value
    run bindings rest

/-- What a program declares. -/
def declarations (program : List Stmt) : Except Fault Declarations := do
  let ((), declared) ← (run [] program).run {}
  return declared

/-- What a description declares, or the first error in it. -/
def evaluate (source : String) : Except Error Declarations :=
  match parse source >>= declarations with
  | .ok declared => .ok declared
  | .error fault => .error (fault.locate source)

end Script

end AssetPipeline
