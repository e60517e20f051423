import AssetPipeline.Build.Regeneration
import AssetPipeline.Script.Evaluation

/-! The complete build graph of a pipeline description, one that also knows how to make itself
anew. -/

namespace AssetPipeline

/-- The graph of a description over a source directory. -/
def generateFromSource (sources : Sources) (source : String) (o : RegenOptions) :
    Except BuildFault Compiled := do
  let declared ← (Script.evaluate source).mapError (.script o.scriptPath)
  let compiled ← compile sources declared
  let wiring := GraphEdit.wireRegeneration o compiled.outputs compiled.sourcePatterns
  let graph ← (wiring.apply compiled.graph).mapError .graph
  return { compiled with graph }

/-- The description that options name. -/
def readScript (w : Workspace) (o : RegenOptions) : Except BuildFault String :=
  match w.readText o.scriptPath with
  | .ok source => .ok source
  | .error .notFound => .error (.missingScript o.scriptPath)
  | .error fault => .error (.unreadableScript fault)

/-- The graph of the description that options name. -/
def generate (w : Workspace) (o : RegenOptions) : Except BuildFault Compiled := do
  let source ← readScript w o
  generateFromSource (.ofWorkspace w o.srcRoot) source o

end AssetPipeline
