import AssetPipeline.Files.Fault
import AssetPipeline.Files.Tree

/-! Finding the location that a path names. Links are followed, but only so many for one path. -/

namespace AssetPipeline

/-- A path as steps through a tree. -/
structure Route where
  /-- It begins at the top and not at the directory it is used in. -/
  absolute : Bool
  names : List RawPath
  /-- It ends in a slash after a name, so that it can only name a directory. -/
  wantsDirectory : Bool

namespace Route

/-- Bytes that a path and a name in it can have. -/
def maxPathBytes : Nat := 4095
def maxNameBytes : Nat := 255

def parse (path : RawPath) : Except FileFault Route :=
  if path.bytes.contains 0 then .error .nulInPath
  else if path = "" then .error .notFound
  else if maxPathBytes < path.size then .error .nameTooLong
  else
    let segments := path.segments
    .ok
      { absolute := path.bytes.head? = some RawPath.slash
        names := segments.filter (· ≠ "")
        wantsDirectory := segments.getLast? = some ("" : RawPath) }

/-- All steps. What can only name a directory ends with a step to that directory itself. -/
def steps (r : Route) : List RawPath :=
  if r.wantsDirectory then r.names ++ [("." : RawPath)] else r.names

/-- Where the steps begin for a path used in the directory `here`. -/
def start (r : Route) (here : Location) : Location :=
  if r.absolute then [] else here

end Route

/-- A location that was found, and how many more links may be followed. -/
structure Found (budget : Nat) where
  place : Location
  left : Nat
  left_le : left ≤ budget

namespace Node

/-- Takes steps from the location `here`. A last step onto a link follows it too. -/
def follow (root : Node) (budget : Nat) (here : Location) (steps : List RawPath) :
    Except FileFault (Found budget) :=
  match steps with
  | [] => .ok ⟨here, budget, Nat.le_refl _⟩
  | name :: rest =>
    match root.at? here with
    | some (dir entries) =>
      if name = "." then follow root budget here rest
      else if name = ".." then follow root budget here.dropLast rest
      else if Route.maxNameBytes < name.size then .error .nameTooLong
      else
        match entries.lookup name with
        | none => .error .notFound
        | some (link target) =>
          match budget with
          | 0 => .error .tooManyLinks
          | budget + 1 => do
            let route ← Route.parse target
            let ⟨place, left, h⟩ ← follow root budget (route.start here) (route.steps ++ rest)
            return ⟨place, left, Nat.le_succ_of_le h⟩
        | some _ => follow root budget (here ++ [name]) rest
    | _ => .error .notDirectory
termination_by (budget, steps.length)

/-- The location at which writing to a path puts the file. The file may be missing, the directory may
not; a link is followed to what it names, be that missing or not. -/
def creationPlace (root : Node) (budget : Nat) (here : Location) (route : Route) :
    Except FileFault Location := do
  let ⟨parent, left, h⟩ ← follow root budget (route.start here) route.names.dropLast
  match root.at? parent with
  | some (dir entries) =>
    match route.names.getLast? with
    | none => .error .isDirectory
    | some name =>
      if route.wantsDirectory ∨ name = "." ∨ name = ".." then .error .isDirectory
      else if Route.maxNameBytes < name.size then .error .nameTooLong
      else
        match entries.lookup name with
        | some (dir _) => .error .isDirectory
        | some (link target) =>
          match left, h with
          | 0, _ => .error .tooManyLinks
          | left + 1, _ => creationPlace root left parent (← Route.parse target)
        | _ => .ok (parent ++ [name])
  | _ => .error .notDirectory
termination_by budget

/-- The location at which a path would make a new directory or link. Nothing may be there yet, not
even a link to nothing. -/
def freePlace (root : Node) (budget : Nat) (here : Location) (route : Route) :
    Except FileFault Location := do
  let ⟨parent, _, _⟩ ← follow root budget (route.start here) route.names.dropLast
  match root.at? parent with
  | some (dir entries) =>
    match route.names.getLast? with
    | none => .error .exists
    | some name =>
      if name = "." ∨ name = ".." then .error .exists
      else if Route.maxNameBytes < name.size then .error .nameTooLong
      else if (entries.lookup name).isSome then .error .exists
      else .ok (parent ++ [name])
  | _ => .error .notDirectory

end Node

end AssetPipeline
