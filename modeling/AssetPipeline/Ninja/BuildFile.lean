import AssetPipeline.Graph

/-! The build file of a graph. Rules come first, then edges, then the default targets, each in the
order of the graph. -/

namespace AssetPipeline.Ninja

def header : String := "# This file is generated by assetman. Do not edit."

def variableLine (key value : String) : String :=
  "  " ++ key ++ " = " ++ value

def ruleLines (r : Rule) : List String :=
  ["", "rule " ++ r.name, variableLine "command" r.command]
    ++ (match r.description with
        | some text => [variableLine "description" text]
        | none => [])
    ++ (if r.generator then [variableLine "generator" "1"] else [])
    ++ (if r.restat then [variableLine "restat" "1"] else [])

def buildLine (e : Edge) : String :=
  "build " ++ joinPaths e.outputs ++ ": " ++ e.rule
    ++ (if e.inputs = [] then "" else " " ++ joinPaths e.inputs)

def edgeLines (e : Edge) : List String :=
  buildLine e :: e.bindings.map fun (key, value) => variableLine key value

def defaultLines (paths : List String) : List String :=
  if paths = [] then [] else ["", "default " ++ joinPaths paths]

/-- The lines of a build file. -/
def lines (g : BuildGraph) : List String :=
  [header] ++ g.rules.flatMap ruleLines
    ++ (if g.edges = [] then [] else "" :: g.edges.flatMap edgeLines)
    ++ defaultLines g.defaults

end AssetPipeline.Ninja

namespace AssetPipeline

/-- The build file of a graph, each line ended by a line feed. -/
def BuildGraph.render (g : BuildGraph) : String :=
  String.join ((Ninja.lines g).map (· ++ "\n"))

end AssetPipeline
