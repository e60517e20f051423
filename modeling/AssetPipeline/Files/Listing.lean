import AssetPipeline.Files.Workspace

/-! The files below a directory, by their paths relative to it. -/

namespace AssetPipeline

/-- Why the files of a directory cannot be listed. -/
inductive ListingFault where
  | file (fault : FileFault)
  | notADirectory
  deriving DecidableEq, Repr

def ListingFault.message : ListingFault → String
  | .file fault => fault.message
  | .notADirectory => "not a directory"

/-- The path that a listing has for names, one below the other. Backslashes in names become slashes, and
what is no text becomes replacement characters. -/
def Path.listed (names : List RawPath) : String :=
  slashed (RawPath.join names).shown

/-- Entries that are visited only on request. A name that is no text is not one of them. -/
def isHidden (name : RawPath) : Bool :=
  name.text?.any Path.isHidden

namespace Node

/-- Files below a directory that lies at `here`, as names from it downwards. Links count as what they
name; a link that names nothing, or a directory that `above` holds, is left out. `above` are the
locations of the directories that the walk is in, and `budget` is the number of links that a path
through them may still follow. `stem` is the number of bytes that stand before a name in the path of
an entry. A directory or a link is looked into by its path, so one whose path is too long is left
out; a file is not looked into. -/
def files (root : Node) (hidden : Bool) (budget : Nat) (here : Location) (above : List Location)
    (stem : Nat) : List (RawPath × Node) → List (List RawPath)
  | [] => []
  | (name, node) :: entries =>
    let reach := stem + name.size
    let found :=
      if isHidden name ∧ ¬ hidden then []
      else
        match node with
        | file _ => [[name]]
        | dir below =>
          if Route.maxPathBytes < reach then []
          else
            let place := here ++ [name]
            (files root hidden budget place (place :: above) (reach + 1) below).map (name :: ·)
        | link target =>
          if Route.maxPathBytes < reach then []
          else
            match linked target with
            | none => []
            | some ⟨⟨place, left, _⟩, _⟩ =>
              match root.at? place with
              | some (file _) => [[name]]
              | some (dir below) =>
                if above.contains place then []
                else
                  (files root hidden left place (place :: above) (reach + 1) below).map (name :: ·)
              | _ => []
    found ++ files root hidden budget here above stem entries
termination_by entries => (budget, sizeOf entries)
where
  /-- Where a link leads. One link less may be followed from there. -/
  linked (target : RawPath) : Option { found : Found budget // found.left < budget } :=
    match budget with
    | 0 => none
    | budget + 1 =>
      match Route.parse target with
      | .error _ => none
      | .ok route =>
        match root.follow budget (route.start here) route.steps with
        | .error _ => none
        | .ok ⟨place, left, h⟩ => some ⟨⟨place, left, Nat.le_succ_of_le h⟩, Nat.lt_succ_of_le h⟩

end Node

namespace Workspace

/-- The relative paths of the files below a directory, in order. Hidden files and directories are
left out unless asked for; the directory itself may have any name. -/
def listFiles (w : Workspace) (path : String) (hidden : Bool) :
    Except ListingFault (List String) :=
  match w.locate path with
  | .error fault => .error (.file fault)
  | .ok found =>
    match w.root.at? found.place with
    | some (.dir entries) =>
      let stem := (Path.below path "").utf8ByteSize
      let names := w.root.files hidden found.left found.place [found.place] stem entries
      .ok ((names.map Path.listed).mergeSort (· ≤ ·))
    | _ => .error .notADirectory

end Workspace

end AssetPipeline
