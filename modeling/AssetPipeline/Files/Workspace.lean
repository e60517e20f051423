import AssetPipeline.Files.Route
import AssetPipeline.Path.Lookup

/-! A file tree and the directory in it that relative paths start from. Operations that can fail
half-way leave what they did behind. -/

namespace AssetPipeline

structure Workspace where
  root : Node
  cwd : Location

namespace Workspace

/-- Links that one path may lead through. -/
def maxLinks : Nat := 40

/-- The location that a path names. -/
def locate (w : Workspace) (path : RawPath) : Except FileFault (Found maxLinks) := do
  let route ← Route.parse path
  w.root.follow maxLinks (route.start w.cwd) route.steps

/-- The node that a path names, links followed. -/
def node (w : Workspace) (path : RawPath) : Except FileFault Node := do
  let found ← w.locate path
  match w.root.at? found.place with
  | some node => return node
  | none => .error .notFound

def isFile (w : Workspace) (path : RawPath) : Bool :=
  match w.node path with
  | .ok (.file _) => true
  | _ => false

def isDir (w : Workspace) (path : RawPath) : Bool :=
  match w.node path with
  | .ok (.dir _) => true
  | _ => false

def readBytes (w : Workspace) (path : RawPath) : Except FileFault ByteArray := do
  match ← w.node path with
  | .file content => return content
  | _ => .error .isDirectory

def readText (w : Workspace) (path : RawPath) : Except FileFault String := do
  match String.fromUTF8? (← w.readBytes path) with
  | some text => return text
  | none => .error .notText

/-- The tree with a file's content replaced. A missing file is created, its directory is not. -/
def writeBytes (w : Workspace) (path : RawPath) (content : ByteArray) :
    Except FileFault Workspace := do
  let route ← Route.parse path
  let place ← w.root.creationPlace maxLinks w.cwd route
  return { w with root := w.root.put place (.file content) }

/-- The tree with a new directory. -/
def makeDir (w : Workspace) (path : RawPath) : Except FileFault Workspace := do
  let route ← Route.parse path
  let place ← w.root.freePlace maxLinks w.cwd route
  return { w with root := w.root.put place (.dir []) }

/-- The tree with a new symbolic link. -/
def makeLink (w : Workspace) (path target : RawPath) : Except FileFault Workspace := do
  let route ← Route.parse path
  let place ← w.root.freePlace maxLinks w.cwd route
  return { w with root := w.root.put place (.link target) }

/-- The tree without the file or link that a path names. -/
def removeFile (w : Workspace) (path : RawPath) : Except FileFault Workspace := do
  let route ← Route.parse path
  let parent ← w.root.follow maxLinks (route.start w.cwd) route.names.dropLast
  match route.names.getLast? with
  | some name =>
    match w.root.at? (parent.place ++ [name]) with
    | some (.dir _) => .error .isDirectory
    | some _ => return { w with root := w.root.remove (parent.place ++ [name]) }
    | none => .error .notFound
  | none => .error .isDirectory

/-- Makes the first of `paths`, which are a directory and its parents from the inside out. Parents
are made where they are missing. -/
def makeDirs (w : Workspace) : List String → Except FileFault Unit × Workspace
  | [] => (.ok (), w)
  | path :: parents =>
    match w.makeDir path with
    | .ok w => (.ok (), w)
    | .error .notFound =>
      match w.makeDirs parents with
      | (.error fault, w) => (.error fault, w)
      | (.ok (), w) =>
        match w.makeDir path with
        | .ok w => (.ok (), w)
        | .error fault => (if w.isDir path then .ok () else .error fault, w)
    | .error fault => (if w.isDir path then .ok () else .error fault, w)

/-- A directory with all the directories it is in. -/
def makeDirAll (w : Workspace) (path : String) : Except FileFault Unit × Workspace :=
  w.makeDirs (Path.ancestors path)

end Workspace

end AssetPipeline
