import AssetPipeline.Build.Pattern
import AssetPipeline.Declaration

/-! Declarations compiled into a build graph. Builders over the source directory come first. Builders
over the build directory follow and match the outputs that those declare, since the files themselves
need not exist yet. -/

namespace AssetPipeline

/-- Names of the rules that every build file defines for itself. -/
def refreshRule : String := "COMPARE_ECHO"
def generateRule : String := "GENERATE"
def cleanRule : String := "CLEAN"

def reservedRules : List String := [phony, refreshRule, generateRule, cleanRule]

structure Compiled where
  graph : BuildGraph := {}
  /-- Outputs of the builders' edges, in the order of the edges. -/
  outputs : List String := []
  /-- Patterns over the source directory, each once, in the order of first use. -/
  sourcePatterns : List String := []
  warnings : List String := []
  deriving DecidableEq

namespace RuleDecl

def fault? (r : RuleDecl) : Option DeclarationFault :=
  if reservedRules.contains r.name then some (.reservedRule r.name)
  else if ¬ Ninja.isValidName r.name then some (.invalidRuleName r.name)
  else
    match r.command with
    | none => some (.missingCommand r.name)
    | some command => if Ninja.hasLineBreak command then some (.commandLineBreak r.name) else none

/-- The declared rule in a graph. -/
def toRule (r : RuleDecl) : Rule :=
  { name := r.name, command := r.command.getD "" }

end RuleDecl

namespace Builder

/-- What is wrong with the variables of a builder with the given verb and pattern. -/
def variableFault? (verb pattern : String) : List (String × String) → Option DeclarationFault
  | [] => none
  | (key, value) :: entries =>
    if ¬ Ninja.isValidName key then some (.invalidVariable verb pattern key)
    else if Ninja.hasLineBreak value then some (.valueLineBreak verb pattern key)
    else variableFault? verb pattern entries

/-- What is wrong with a builder, given the graph that holds the declared rules. -/
def fault? (g : BuildGraph) (b : Builder) : Option DeclarationFault :=
  match b.rule with
  | none => some (.missingRule b.verb b.pattern)
  | some rule =>
    if ¬ g.hasRule rule then some (.undeclaredRule b.verb b.pattern rule)
    else if Ninja.hasLineBreak b.pattern then some (.patternLineBreak b.verb b.pattern)
    else if b.targets.any Ninja.hasLineBreak then some (.targetLineBreak b.verb b.pattern)
    else
      match variableFault? b.verb b.pattern b.assignments.entries with
      | some fault => some fault
      | none =>
        match b with
        | single s => if s.target = none then some (.missingTarget s.pattern) else none
        | bundle _ => none

end Builder

/-- The edge for one file that a single matches. Its output lies in the directory of the file, its
input below `root`. -/
def Single.edge? (s : Single) (root file : String) : Option Edge :=
  (s.outputName (Path.fileStem file)).map fun name =>
    { rule := s.rule.getD ""
      outputs := [Path.joinRoot (Path.parentDir file) name]
      inputs := [Path.joinRoot root file]
      bindings := s.assignments.entries }

/-- The edge from all files that a bundle matches to its targets. -/
def Bundle.edge (b : Bundle) (root : String) (files : List String) : Edge :=
  { rule := b.rule.getD ""
    outputs := b.targets
    inputs := files.map (Path.joinRoot root)
    bindings := b.assignments.entries }

namespace Builder

/-- The edges of a builder for the files that it matches, in the order of the files. -/
def edges (root : String) (files : List String) : Builder → List Edge
  | single s => files.filterMap (s.edge? root)
  | bundle b => if b.targets = [] ∨ files = [] then [] else [b.edge root files]

def warnings : Builder → List String
  | single _ => []
  | bundle b =>
    if b.targets = [] then
      ["No targets specified for bundle clause with pattern: " ++ b.pattern]
    else []

end Builder

namespace Compiled

/-- Adds an edge of a builder, and its outputs to the builders' outputs. -/
def addEdge (b : Builder) (c : Compiled) (e : Edge) : Except BuildFault Compiled := do
  let graph ← (c.graph.addEdge e).mapError (.edge b.verb b.pattern)
  return { c with graph, outputs := c.outputs ++ e.outputs }

/-- Adds what a builder makes of the files that it matches. -/
def addBuilder (root : String) (files : List String) (c : Compiled) (b : Builder) :
    Except BuildFault Compiled :=
  (b.edges root files).foldlM (addEdge b) { c with warnings := c.warnings ++ b.warnings }

/-- Adds a builder over the source directory. -/
def addSourceBuilder (sources : Sources) (c : Compiled) (b : Builder) :
    Except BuildFault Compiled := do
  let files ← sources.resolve b.pattern
  let patterns :=
    if c.sourcePatterns.contains b.pattern then c.sourcePatterns
    else c.sourcePatterns ++ [b.pattern]
  addBuilder sources.root files { c with sourcePatterns := patterns } b

/-- Adds a builder over the build directory, which sees the given outputs and nothing else. -/
def addBuildBuilder (available : List String) (c : Compiled) (b : Builder) :
    Except BuildFault Compiled := do
  let files ← available.filterM fun output => Glob.matches output b.pattern
  addBuilder "." files c b

/-- Adds a declared rule. -/
def addRule (g : BuildGraph) (r : RuleDecl) : Except BuildFault BuildGraph :=
  match r.fault? with
  | some fault => .error (.declaration fault)
  | none => (g.addRule r.toRule).mapError .graph

end Compiled

/-- The graph of declarations over a source directory. All that can be wrong with the declarations
themselves is found before the first pattern is resolved. -/
def compile (sources : Sources) (d : Declarations) : Except BuildFault Compiled := do
  let graph ← d.rules.foldlM Compiled.addRule {}
  if let some fault := d.builders.findSome? (Builder.fault? graph) then
    throw (.declaration fault)
  let overSources ← (d.builders.filter (! ·.buildRelative)).foldlM
    (Compiled.addSourceBuilder sources) { graph }
  (d.builders.filter (·.buildRelative)).foldlM
    (Compiled.addBuildBuilder overSources.outputs) overSources

end AssetPipeline
