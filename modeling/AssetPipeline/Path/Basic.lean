import AssetPipeline.Text.Chars

/-! Paths as the build file holds them: plain text with forward slashes. Source inputs are joined to
the source root, outputs stay relative to the directory of the build file. -/

namespace AssetPipeline.Path

/-- Backslashes separate like slashes, and are written as such. -/
def slashed (path : String) : String :=
  path.map fun c => if c = '\\' then '/' else c

/-- The segments of a path, the empty ones between adjacent slashes included. -/
def segments (path : String) : List String :=
  (Chars.splitOn '/' path.toList).map String.ofList

/-- A segment that begins with a dot: the name of something hidden, or `.` or `..`. -/
def isHidden (segment : String) : Bool :=
  segment.toList.head? = some '.'

/-- Drops `./` from the front as often as it stands there, with the slashes that follow it. -/
def dropDotSlash : List Char → List Char
  | '.' :: '/' :: path => dropDotSlash (path.dropWhile (· = '/'))
  | path => path
termination_by path => path.length
decreasing_by
  have := (List.dropWhile_sublist (fun c => decide (c = '/')) (l := path)).length_le
  simp only [List.length_cons]
  omega

/-- A root directory in the form the build file uses: forward slashes, no leading `./` and no slash
at the end. The current directory is `.`, and a root of slashes alone is `/`. -/
def cleanRoot (root : String) : String :=
  let path := (slashed root).toList
  if path ≠ [] ∧ path.all (· = '/') then "/"
  else
    match Chars.trimEnd '/' (dropDotSlash path) with
    | [] => "."
    | cleaned => String.ofList cleaned

/-- A path below `root`. The current directory adds nothing to it. -/
def joinRoot (root path : String) : String :=
  if root = "" ∨ root = "." then path
  else if root = "/" then "/" ++ path
  else String.ofList (Chars.trimEnd '/' root.toList) ++ "/" ++ path

/-- Directory part of a path, empty for a bare file name. -/
def parentDir (path : String) : String :=
  match Chars.cutLast? '/' path.toList with
  | some (dir, _) => String.ofList dir
  | none => ""

/-- Last segment of a path. -/
def fileName (path : String) : String :=
  match Chars.cutLast? '/' path.toList with
  | some (_, name) => String.ofList name
  | none => path

/-- File name without its final extension. A name whose only dot comes first is kept whole. -/
def fileStem (path : String) : String :=
  let name := fileName path
  match Chars.cutLast? '.' name.toList with
  | some (c :: stem, _) => String.ofList (c :: stem)
  | _ => name

end AssetPipeline.Path
