import AssetPipeline.Ninja.Text
import AssetPipeline.Text.Quoted

/-! The build graph: rules, edges and the default targets. Edges name their rule, and every output
has one edge that produces it. -/

namespace AssetPipeline

/-- The rule that only gives its inputs another name. It needs no declaration. -/
def phony : String := "phony"

structure Rule where
  name : String
  command : String
  description : Option String := none
  /-- The output is the build file itself. -/
  generator : Bool := false
  /-- An output that the command leaves unchanged does not count as rebuilt. -/
  restat : Bool := false
  deriving DecidableEq

structure Edge where
  rule : String
  outputs : List String
  inputs : List String := []
  /-- Variables of this edge alone. Their values are written as they are and may name others. -/
  bindings : List (String × String) := []
  deriving DecidableEq

/-- The texts of a rule or an edge that must keep to one line. -/
inductive GraphText where
  | command
  | description
  | path
  | variableValue
  deriving DecidableEq, Repr

def GraphText.describe : GraphText → String
  | .command => "command"
  | .description => "description"
  | .path => "path"
  | .variableValue => "variable value"

inductive GraphError where
  | duplicateRule (name : String)
  | unknownRule (rule : String) (outputs : List String)
  | emptyOutputs (rule : String)
  /-- `first` is the rule of the edge that produces the output already. -/
  | duplicateOutput (output first second : String)
  | selfDependency (path rule : String)
  | invalidName (name : String)
  | lineBreak (rule : String) (part : GraphText) (text : String)
  deriving DecidableEq

def GraphError.message : GraphError → String
  | .duplicateRule name => "rule '" ++ name ++ "' is declared more than once"
  | .unknownRule rule outputs =>
    "edge producing [" ++ ", ".intercalate outputs ++ "] uses undeclared rule '" ++ rule ++ "'"
  | .emptyOutputs rule => "edge using rule '" ++ rule ++ "' declares no outputs"
  | .duplicateOutput output first second =>
    "output '" ++ output ++ "' is produced by more than one edge (rules '" ++ first ++ "' and '"
      ++ second ++ "')"
  | .selfDependency path rule =>
    "edge using rule '" ++ rule ++ "' lists '" ++ path ++ "' as both input and output"
  | .invalidName name =>
    "'" ++ name ++ "' is not a valid rule or variable name (use letters, digits, '_', '.', '-')"
  | .lineBreak rule part text =>
    "rule '" ++ rule ++ "' has a line break in " ++ part.describe ++ " " ++ Text.quoted text

structure BuildGraph where
  rules : List Rule := []
  edges : List Edge := []
  defaults : List String := []
  /-- For each output the position of its edge. Of two entries for a path the first counts. -/
  producers : List (String × Nat) := []
  deriving DecidableEq

namespace BuildGraph

def hasRule (g : BuildGraph) (name : String) : Bool :=
  name = phony || g.rules.any (·.name = name)

/-- The edge that produces `path`, if any. -/
def producer? (g : BuildGraph) (path : String) : Option Edge :=
  (g.producers.lookup path).bind fun position => g.edges[position]?

/-- Edges with the given rule, in the order in which they were added. -/
def edgesUsing (g : BuildGraph) (rule : String) : List Edge :=
  g.edges.filter (·.rule = rule)

/-- What keeps a rule out of the graph. -/
def ruleFault? (g : BuildGraph) (r : Rule) : Option GraphError :=
  if ¬ Ninja.isValidName r.name then some (.invalidName r.name)
  else if r.name = phony ∨ g.hasRule r.name then some (.duplicateRule r.name)
  else if Ninja.hasLineBreak r.command then some (.lineBreak r.name .command r.command)
  else
    match r.description with
    | some text => if Ninja.hasLineBreak text then some (.lineBreak r.name .description text) else none
    | none => none

def addRule (g : BuildGraph) (r : Rule) : Except GraphError BuildGraph :=
  match g.ruleFault? r with
  | some fault => .error fault
  | none => .ok { g with rules := g.rules ++ [r] }

/-- The first of an edge's variables that cannot be written. -/
def variableFault? (rule : String) : List (String × String) → Option GraphError
  | [] => none
  | (key, value) :: bindings =>
    if ¬ Ninja.isValidName key then some (.invalidName key)
    else if Ninja.hasLineBreak value then some (.lineBreak rule .variableValue value)
    else variableFault? rule bindings

/-- The first output that has a producer: an edge of the graph, or the edge itself when it listed the
output `before`. -/
def duplicateFault? (g : BuildGraph) (rule : String) (before : List String) :
    List String → Option GraphError
  | [] => none
  | output :: outputs =>
    match g.producer? output with
    | some earlier => some (.duplicateOutput output earlier.rule rule)
    | none =>
      if before.contains output then some (.duplicateOutput output rule rule)
      else duplicateFault? g rule (output :: before) outputs

/-- What keeps an edge out of the graph. -/
def edgeFault? (g : BuildGraph) (e : Edge) : Option GraphError :=
  if e.outputs = [] then some (.emptyOutputs e.rule)
  else if ¬ g.hasRule e.rule then some (.unknownRule e.rule e.outputs)
  else
    match (e.outputs ++ e.inputs).find? Ninja.hasLineBreak with
    | some path => some (.lineBreak e.rule .path path)
    | none =>
      match variableFault? e.rule e.bindings with
      | some fault => some fault
      | none =>
        match e.outputs.find? e.inputs.contains with
        | some path => some (.selfDependency path e.rule)
        | none => g.duplicateFault? e.rule [] e.outputs

def addEdge (g : BuildGraph) (e : Edge) : Except GraphError BuildGraph :=
  match g.edgeFault? e with
  | some fault => .error fault
  | none =>
    .ok { g with
      edges := g.edges ++ [e]
      producers := e.outputs.map (·, g.edges.length) ++ g.producers }

end BuildGraph

end AssetPipeline
