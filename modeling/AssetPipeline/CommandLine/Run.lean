import AssetPipeline.Build.Generation
import AssetPipeline.CommandLine.Arguments
import AssetPipeline.CommandLine.Help
import AssetPipeline.FileList
import AssetPipeline.Settings.File

/-! Running a command line over a workspace. -/

namespace AssetPipeline

namespace CommandLine

/-- How a run ends, and what it prints. -/
inductive Outcome where
  | printed (text : String)
  | done
  | failed (failure : Failure)
  | usage

/-- Exit status of a run. -/
def Outcome.status : Outcome → Nat
  | printed _ => 0
  | done => 0
  | failed _ => 1
  | usage => 2

def Outcome.stdout : Outcome → String
  | printed text => text
  | _ => ""

/-- What a run reports of its failure: the message, and under it what lies behind it. -/
def Outcome.stderr : Outcome → String
  | failed failure =>
    "Error: " ++ failure.message ++ "\n"
      ++ (failure.cause?.elim "" fun cause => "\nCaused by:\n    " ++ cause ++ "\n")
  | usage => usageText
  | _ => ""

/-- The first line of a text whose lines end with a line feed, or a carriage return and a line feed. -/
def firstLine (text : String) : String :=
  let line := text.toList.takeWhile (· ≠ '\n')
  String.ofList (if line.getLast? = some '\r' then line.dropLast else line)

/-- The line that reports a failure; of a longer message only the first line. -/
def Outcome.errorLine? : Outcome → Option String
  | failed failure => some (firstLine ("Error: " ++ failure.message))
  | _ => none

/-- The build file for a source directory, with the path to write it to. -/
def buildFile (currentProgram : String) (w : Workspace) (srcPath : String) :
    Except Failure (String × String) := do
  let srcRoot := Path.cleanRoot srcPath
  let loaded ← loadSettings w srcRoot
  let settingsPath := loaded.path.map fun _ => Path.joinRoot srcRoot settingsFileName
  let options := loaded.settings.regenOptions srcRoot currentProgram settingsPath
  let compiled ← (generate w options).mapError .build
  return (options.graphFile, compiled.graph.render)

/-- Runs a command. Files are written last, so a failure leaves all of them as they were. -/
def runCommand (currentProgram : String) (w : Workspace) : Command → Outcome × Workspace
  | .generate srcPath =>
    match buildFile currentProgram w srcPath with
    | .error failure => (.failed failure, w)
    | .ok (path, text) =>
      match w.writeBytes path text.toUTF8 with
      | .ok w => (.done, w)
      | .error fault => (.failed (.writeBuildFile path fault), w)
  | .refresh root output patterns =>
    match FileList.refresh w root patterns output with
    | (.ok _, w) => (.done, w)
    | (.error failure, w) => (.failed failure, w)

/-- Runs a command line. -/
def run (currentProgram : String) (w : Workspace) (args : List String) : Outcome × Workspace :=
  match parse args with
  | none => (.usage, w)
  | some .version => (.printed versionText, w)
  | some .help => (.printed helpText, w)
  | some .refreshHelp => (.printed refreshHelpText, w)
  | some .helpHelp => (.printed helpHelpText, w)
  | some (.run command) => runCommand currentProgram w command

end CommandLine

end AssetPipeline
