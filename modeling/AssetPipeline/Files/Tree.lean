import AssetPipeline.Files.RawPath

/-! File trees: directories, files and symbolic links. A location is the list of names from the top
of a tree to one of its nodes, with no link on the way. -/

namespace AssetPipeline

inductive Node where
  | file (content : ByteArray)
  | dir (entries : List (RawPath × Node))
  | link (target : RawPath)

abbrev Location := List RawPath

namespace Node

/-- The node at a location. -/
def at? (node : Node) : Location → Option Node
  | [] => some node
  | name :: rest =>
    match node with
    | dir entries => (entries.lookup name).bind (·.at? rest)
    | _ => none

/-- Entries with `node` under `name`, in the place of what was there. -/
def putEntry (name : RawPath) (node : Node) : List (RawPath × Node) → List (RawPath × Node)
  | [] => [(name, node)]
  | (other, old) :: entries =>
    if other = name then (name, node) :: entries else (other, old) :: putEntry name node entries

/-- The tree with `new` at a location. Where the directory that should hold it is missing, nothing
changes. -/
def put (node : Node) (place : Location) (new : Node) : Node :=
  match place with
  | [] => new
  | name :: rest =>
    match node with
    | dir entries =>
      match entries.lookup name with
      | some child => dir (putEntry name (child.put rest new) entries)
      | none => if rest = [] then dir (putEntry name new entries) else dir entries
    | other => other

/-- The tree without the node at a location. -/
def remove (node : Node) (place : Location) : Node :=
  match place with
  | [] => node
  | name :: rest =>
    match node with
    | dir entries =>
      if rest = [] then dir (entries.filter (·.1 ≠ name))
      else
        match entries.lookup name with
        | some child => dir (putEntry name (child.remove rest) entries)
        | none => dir entries
    | other => other

end Node

end AssetPipeline
