import AssetPipeline.Build.Pattern
import AssetPipeline.Failure

/-! The list of matched files, which a build refreshes on every run. It is written again only when the
matched files changed, so it counts as new only then. -/

namespace AssetPipeline

namespace Workspace

/-- Writes `content` unless the file holds just that. Missing parent directories are made. The flag
says whether the file was written; a failure may leave directories behind. -/
def writeIfChanged (w : Workspace) (path content : String) : Except Failure Bool × Workspace :=
  if (w.readText path).toOption = some content then (.ok false, w)
  else
    match makeParent with
    | (.error failure, w) => (.error failure, w)
    | (.ok (), w) =>
      match w.writeBytes path content.toUTF8 with
      | .ok w => (.ok true, w)
      | .error fault => (.error (.writeFile path fault), w)
where
  makeParent : Except Failure Unit × Workspace :=
    match Path.parent? path with
    | none => (.ok (), w)
    | some "" => (.ok (), w)
    | some parent =>
      match w.makeDirAll parent with
      | (.ok (), w) => (.ok (), w)
      | (.error fault, w) => (.error (.createDirectory parent fault), w)

end Workspace

namespace FileList

/-- The list without an entry that equals the one before it. -/
def dropRepeats : List String → List String
  | [] => []
  | [file] => [file]
  | file :: next :: files =>
    if file = next then dropRepeats (next :: files) else file :: dropRepeats (next :: files)

/-- The files of a source directory that match any of the patterns, in order. -/
def collect (sources : Sources) (patterns : List String) : Except BuildFault (List String) := do
  let found ← patterns.mapM sources.resolve
  return dropRepeats (found.flatten.mergeSort (· ≤ ·))

/-- Brings the list in the file `output` up to date. -/
def refresh (w : Workspace) (root : String) (patterns : List String) (output : String) :
    Except Failure Bool × Workspace :=
  match collect (.ofWorkspace w root) patterns with
  | .error fault => (.error (.build fault), w)
  | .ok files => w.writeIfChanged output ("\n".intercalate files)

end FileList

end AssetPipeline
