import AssetPipeline.Path.Basic

/-! Paths as names of files: their parents, and when two of them are told apart. -/

namespace AssetPipeline.Path

/-- A segment that is a step of its own. Empty ones and `.` stay where they are. -/
def isStep (segment : String) : Bool :=
  segment ≠ "" && segment ≠ "."

/-- What a path is known by: repeated slashes, a slash at the end and any `.` but the first do not
tell paths apart. -/
structure Key where
  absolute : Bool
  steps : List String
  deriving DecidableEq

def key (path : String) : Key :=
  let segs := segments path
  { absolute := path.toList.head? = some '/'
    steps := segs.take 1 |>.filter (· ≠ "") |>.append ((segs.drop 1).filter isStep) }

/-- What a path begins with before its first step: a slash, a `.`, or nothing. -/
def anchor (path : String) : List Char :=
  match path.toList with
  | '/' :: _ => ['/']
  | ['.'] => ['.']
  | '.' :: '/' :: _ => ['.']
  | _ => []

/-- Drops segments from the end that are no steps. -/
def trimSteps (segs : List String) : List String :=
  (segs.reverse.dropWhile (! isStep ·)).reverse

/-- The path without its last step. The top has no parent; a bare name has the empty one. -/
def parent? (path : String) : Option String :=
  let front := anchor path
  let body := trimSteps (segments (String.ofList (path.toList.drop front.length)))
  if body = [] then if front = ['.'] then some "" else none
  else some (String.ofList front ++ "/".intercalate (trimSteps body.dropLast))

/-- A path and its parents, innermost first, as far as they name a directory of their own. -/
def ancestors (path : String) : List String :=
  upwards (path.length + 1) path
where
  /-- A parent is shorter than its path, so as many steps are enough as the path has characters. -/
  upwards : Nat → String → List String
    | 0, _ => []
    | steps + 1, path =>
      if path = "" then []
      else
        match parent? path with
        | some parent => path :: upwards steps parent
        | none => [path]

/-- A path below a directory, with one slash between them. -/
def below (dir name : String) : String :=
  if dir = "" ∨ dir.toList.getLast? = some '/' then dir ++ name else dir ++ "/" ++ name

end AssetPipeline.Path
