import AssetPipeline.Build.Compilation
import AssetPipeline.Ninja.BuildFile
import AssetPipeline.Shell

/-! Bookkeeping edges that keep a build file current.

The dirty marker is a target without inputs that is always out of date. The file list depends on it,
so its command runs on every build and lists the matched files again; it leaves an unchanged list
alone, and then nothing else is rebuilt. The build file depends on the description and on the list.
`clean` hands over to the executor. The default targets are the user's outputs, or the build file
where there are none, so that `clean` is never built by accident. -/

namespace AssetPipeline

/-- File names and commands unless settings say otherwise. -/
def defaultScript : String := "assets.js"
def defaultGraphFile : String := "build.ninja"
def defaultFileList : String := ".src_files"
def defaultDirtyMarker : String := ".dirty"
def defaultCleanCommand : String := "ninja -t clean"

/-- The subcommand by which the file list is refreshed. -/
def refreshCommand : String := "refresh-file-list"

/-- Paths and commands that the bookkeeping edges are made of. -/
structure RegenOptions where
  /-- Program that generates again. -/
  program : String
  /-- Source directory, as the generator was told of it. -/
  srcRoot : String
  scriptPath : String
  /-- Settings file, if there is one. -/
  settingsPath : Option String := none
  graphFile : String := defaultGraphFile
  fileList : String := defaultFileList
  dirtyMarker : String := defaultDirtyMarker
  cleanCommand : String := defaultCleanCommand
  deriving DecidableEq

/-- Options with nothing but defaults over a source directory. -/
def RegenOptions.default (program srcRoot : String) : RegenOptions :=
  { program, srcRoot, scriptPath := Path.joinRoot srcRoot defaultScript }

namespace Regeneration

/-- A word of a command, written so that the executor and then the shell read it back. -/
def word (text : String) : String :=
  Ninja.escapeValue (Shell.quote text)

def rules (o : RegenOptions) : List Rule :=
  [ { name := refreshRule
      command := word o.program ++ " " ++ refreshCommand ++ " --root $root --output $out $patterns"
      description := some "Updating file list..."
      restat := true },
    { name := generateRule
      command := word o.program ++ " " ++ word o.srcRoot
      description := some "Re-running assetman..."
      generator := true },
    { name := cleanRule
      command := o.cleanCommand
      description := some "Cleaning built files..." } ]

/-- The edge that refreshes the file list, if there are patterns to list files for. -/
def fileListEdge? (o : RegenOptions) (sourcePatterns : List String) : Option Edge :=
  if sourcePatterns = [] then none
  else
    some
      { rule := refreshRule
        outputs := [o.fileList]
        inputs := [o.dirtyMarker]
        bindings :=
          [("patterns", Ninja.escapeValue (Shell.join sourcePatterns)), ("root", word o.srcRoot)] }

def edges (o : RegenOptions) (sourcePatterns : List String) : List Edge :=
  let refresh := (fileListEdge? o sourcePatterns).toList
  [{ rule := phony, outputs := [o.dirtyMarker] }]
    ++ refresh
    ++ [{ rule := generateRule
          outputs := [o.graphFile]
          inputs := [o.scriptPath] ++ o.settingsPath.toList ++ refresh.flatMap (·.outputs) },
        { rule := cleanRule, outputs := ["clean"] }]

def defaults (o : RegenOptions) (outputs : List String) : List String :=
  if outputs = [] then [o.graphFile] else outputs

end Regeneration

/-- Steps that change a graph. A step that fails leaves what the steps before it did. -/
abbrev GraphEdit := ExceptT GraphError (StateM BuildGraph)

namespace GraphEdit

/-- One change, which is made as a whole or not at all. -/
def change (step : BuildGraph → Except GraphError BuildGraph) : GraphEdit Unit := do
  match step (← get) with
  | .ok graph => set graph
  | .error error => throw error

def addRule (r : Rule) : GraphEdit Unit := change (·.addRule r)

def addEdge (e : Edge) : GraphEdit Unit := change (·.addEdge e)

def setDefaults (paths : List String) : GraphEdit Unit :=
  modify fun graph => { graph with defaults := paths }

/-- Adds the bookkeeping rules and edges, and sets the default targets. -/
def wireRegeneration (o : RegenOptions) (outputs sourcePatterns : List String) :
    GraphEdit Unit := do
  (Regeneration.rules o).forM addRule
  (Regeneration.edges o sourcePatterns).forM addEdge
  setDefaults (Regeneration.defaults o outputs)

/-- The graph after all steps, if none fails. -/
def apply (edit : GraphEdit Unit) (graph : BuildGraph) : Except GraphError BuildGraph :=
  match edit.run.run graph with
  | (.ok (), graph) => .ok graph
  | (.error error, _) => .error error

end GraphEdit

end AssetPipeline
