import AssetPipeline.CommandLine.Run

/-! The program. It reads what a command line names into a workspace, runs the command line there, and
writes back what the run made or changed. -/

namespace AssetPipeline.CommandLine

/-- The locations of a path and of the directories that it leads through, by their names alone. -/
def places (w : Workspace) (path : String) : List Location :=
  match Route.parse path with
  | .error _ => []
  | .ok route =>
    let step (place : Location) (name : RawPath) : Location :=
      if name = "." then place else if name = ".." then place.dropLast else place ++ [name]
    ((List.range (route.names.length + 1)).map fun count =>
      (route.names.take count).foldl step (route.start w.cwd)).eraseDups

/-- A location as an absolute path. -/
def absolute (place : Location) : String :=
  "/" ++ (RawPath.join place).shown

/-- What stands at a path of the machine, if it is a file or a directory or a link to one. -/
def kindAt? (path : String) : IO (Option IO.FS.FileType) := do
  try
    match (← (← IO.FS.realPath path).metadata).type with
    | .dir => return some .dir
    | .file => return some .file
    | _ => return none
  catch _ => return none

/-- Adds what a path names, a file with its content, and the directories it leads through. -/
def look (w : Workspace) (path : String) : IO Workspace :=
  (places w path).foldlM (fun w place => do
    if (w.root.at? place).isSome then return w
    match ← kindAt? (absolute place) with
    | some .dir => return { w with root := w.root.put place (.dir []) }
    | some .file =>
      let content ← IO.FS.readBinFile (absolute place)
      return { w with root := w.root.put place (.file content) }
    | _ => return w) w

/-- The entries of a directory of the machine. Files have the content that `known` gives, or none,
and a link back to a directory that it lies in is an empty one. -/
partial def entriesBelow (known : Option Node) (path : String) (above : List String) :
    IO (List (RawPath × Node)) := do
  let here ← IO.FS.realPath path
  if above.contains here.toString then return []
  let mut entries : List (RawPath × Node) := []
  for entry in ← here.readDir do
    let inside := known.bind (·.at? [entry.fileName])
    match ← kindAt? entry.path.toString with
    | some .dir =>
      let below ← entriesBelow inside entry.path.toString (here.toString :: above)
      entries := (entry.fileName, .dir below) :: entries
    | some .file => entries := (entry.fileName, inside.getD (.file .empty)) :: entries
    | _ => pure ()
  return entries

/-- Adds what a directory holds. -/
def lookBelow (w : Workspace) (path : String) : IO Workspace := do
  match (places w path).getLast? with
  | none => return w
  | some place =>
    match w.root.at? place with
    | some (.dir entries) =>
      let entries ← entriesBelow (some (.dir entries)) (absolute place) []
      return { w with root := w.root.put place (.dir entries) }
    | _ => return w

/-- Reads what a command needs. The path is that of the file which it may write. -/
def gather (w : Workspace) : Command → IO (Workspace × String)
  | .generate srcPath => do
    let srcRoot := Path.cleanRoot srcPath
    let w ← look w (Path.below srcRoot settingsFileName)
    match loadSettings w srcRoot with
    | .error _ => return (w, "")
    | .ok loaded => do
      let w ← look w (Path.joinRoot srcRoot loaded.settings.script)
      let w ← look w loaded.settings.graphFile
      return (← lookBelow w srcRoot, loaded.settings.graphFile)
  | .refresh root output _ => do
    let w ← look (← look w root) output
    return (← lookBelow w root, output)

/-- Writes the file that a path names, and makes the directories it lies in, as far as they are not
what they were before. -/
def store (before after : Workspace) (path : String) : IO Unit :=
  (places before path).forM fun place => do
    match before.root.at? place, after.root.at? place with
    | none, some (.dir _) => IO.FS.createDir (absolute place)
    | some (.file old), some (.file new) =>
      if old != new then IO.FS.writeBinFile (absolute place) new
    | none, some (.file new) => IO.FS.writeBinFile (absolute place) new
    | _, _ => pure ()

/-- Runs a command line on the machine. The result is the exit status. -/
def execute (args : List String) : IO UInt32 := do
  let program ← IO.appPath
  let here ← IO.currentDir
  let top ← look ⟨.dir [], []⟩ here.toString
  let start := { top with cwd := (places top here.toString).getLast?.getD [] }
  let (before, path) ←
    match parse args with
    | some (.run command) => gather start command
    | _ => pure (start, "")
  let (outcome, after) := run program.toString before args
  store before after path
  IO.print outcome.stdout
  IO.eprint outcome.stderr
  return outcome.status.toUInt32

end AssetPipeline.CommandLine

def main (args : List String) : IO UInt32 :=
  AssetPipeline.CommandLine.execute args
