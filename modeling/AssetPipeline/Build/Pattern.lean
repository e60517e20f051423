import AssetPipeline.Build.Fault

/-! Patterns resolved against a source directory. Hidden files come into question only for a pattern
that spells out a hidden segment. -/

namespace AssetPipeline

namespace Glob

/-- Whether some segment of a pattern begins with a dot, other than `.` and `..` themselves. -/
def namesHidden (pattern : String) : Bool :=
  (Path.segments (Path.slashed pattern)).any fun segment =>
    Path.isHidden segment && segment ≠ "." && segment ≠ ".."

/-- A pattern's tokens, or what is wrong with it. -/
def compile (pattern : String) : Except BuildFault Glob :=
  (parse pattern).mapError (.invalidPattern pattern)

/-- Whether a path matches a pattern. Backslashes in the path separate like slashes. -/
def «matches» (path pattern : String) : Except BuildFault Bool := do
  return (← compile pattern).accepts (Path.slashed path)

end Glob

/-- A source directory: what it is called, and the files below it, without the hidden ones or with
them. -/
structure Sources where
  root : String
  files : (hidden : Bool) → Except ListingFault (List String)

namespace Sources

def ofWorkspace (w : Workspace) (root : String) : Sources :=
  ⟨root, w.listFiles root⟩

def list (s : Sources) (hidden : Bool) : Except BuildFault (List String) :=
  (s.files hidden).mapError (.sourceDirectory s.root)

/-- The files that match a pattern, in order. -/
def resolve (s : Sources) (pattern : String) : Except BuildFault (List String) := do
  let glob ← Glob.compile pattern
  return (← s.list (Glob.namesHidden pattern)).filter glob.accepts

end Sources

/-- What a sequence of resolutions remembers: the patterns it has read, the listings it has seen and the
results it has given. A directory is listed once, with hidden files and without, and its listing stays
what it was then. No failure is remembered. -/
structure Resolver where
  globs : List (String × Glob) := []
  listings : List ((Path.Key × Bool) × List String) := []
  results : List ((String × Path.Key) × List String) := []

namespace Resolver

/-- The tokens of a pattern, remembered or read now. -/
def glob (r : Resolver) (pattern : String) : Except BuildFault Glob × Resolver :=
  match r.globs.lookup pattern with
  | some glob => (.ok glob, r)
  | none =>
    match Glob.compile pattern with
    | .ok glob => (.ok glob, { r with globs := (pattern, glob) :: r.globs })
    | .error fault => (.error fault, r)

/-- The files of a directory, remembered or listed now. -/
def list (r : Resolver) (s : Sources) (hidden : Bool) :
    Except BuildFault (List String) × Resolver :=
  let key := (Path.key s.root, hidden)
  match r.listings.lookup key with
  | some files => (.ok files, r)
  | none =>
    match s.list hidden with
    | .ok files => (.ok files, { r with listings := (key, files) :: r.listings })
    | .error fault => (.error fault, r)

/-- The files that match a pattern, remembered or picked from the listing now. -/
def resolve (r : Resolver) (s : Sources) (pattern : String) :
    Except BuildFault (List String) × Resolver :=
  let key := (pattern, Path.key s.root)
  match r.results.lookup key with
  | some found => (.ok found, r)
  | none =>
    match r.glob pattern with
    | (.error fault, r) => (.error fault, r)
    | (.ok glob, r) =>
      match r.list s (Glob.namesHidden pattern) with
      | (.error fault, r) => (.error fault, r)
      | (.ok files, r) =>
        let found := files.filter glob.accepts
        (.ok found, { r with results := (key, found) :: r.results })

/-- Whether a path matches a pattern. No file is looked at. -/
def «matches» (r : Resolver) (path pattern : String) : Except BuildFault Bool × Resolver :=
  match r.glob pattern with
  | (.error fault, r) => (.error fault, r)
  | (.ok glob, r) => (.ok (glob.accepts (Path.slashed path)), r)

end Resolver

end AssetPipeline
