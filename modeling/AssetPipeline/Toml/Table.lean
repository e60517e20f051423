import AssetPipeline.Toml.Value

/-! Tables of a TOML document while it is read. How a table came to be decides what may still be added
to it. -/

namespace AssetPipeline.Toml

inductive TableKind where
  /-- It has a header of its own, or is the document. -/
  | declared
  /-- It only holds tables that have headers. -/
  | implied
  /-- It was made by a dotted key. -/
  | dotted
  deriving DecidableEq

inductive Item where
  | value (v : Value)
  | table (kind : TableKind) (entries : List (String × Item))
  /-- Tables under one repeated header. -/
  | tables (elements : List (List (String × Item)))

abbrev Entries := List (String × Item)

namespace Entries

/-- The entries with `item` under `key`, in the place of what was there. -/
def put (key : String) (item : Item) : Entries → Entries
  | [] => [(key, item)]
  | (other, old) :: entries =>
    if other = key then (key, item) :: entries else (other, old) :: put key item entries

/-- Changes the table that a path leads to. Missing tables on the way are made; of repeated tables the
last is meant. A dotted key may not lead through a table that has a header. -/
def change (byDottedKey : Bool) (f : TableKind → Entries → Option Entries) :
    List String → TableKind → Entries → Option Entries
  | [], kind, entries => f kind entries
  | key :: path, _, entries =>
    match entries.lookup key with
    | none => do
      let kind : TableKind := if byDottedKey then .dotted else .implied
      return put key (.table kind (← change byDottedKey f path kind [])) entries
    | some (.value _) => none
    | some (.table kind inner) =>
      if byDottedKey ∧ kind = .declared then none
      else do return put key (.table kind (← change byDottedKey f path kind inner)) entries
    | some (.tables elements) => do
      let last ← elements.getLast?
      return put key (.tables (elements.dropLast ++ [← change byDottedKey f path .declared last]))
        entries

/-- Adds a value under a dotted key. Tables made by dotted keys grow by dotted keys alone. -/
def addValue (path : List String) (v : Value) (entries : Entries) : Option Entries := do
  let key ← path.getLast?
  let front := path.dropLast
  change true
    (fun kind inner =>
      if (kind = .dotted ↔ front = []) ∨ (inner.lookup key).isSome then none
      else some (put key (.value v) inner))
    front .declared entries

/-- Adds the table of a header. It may have been implied by others, but is declared once; its place
among the entries is that of its header. -/
def addTable (path : List String) (entries : Entries) : Option Entries := do
  let key ← path.getLast?
  change false
    (fun _ inner =>
      match inner.lookup key with
      | none => some (put key (.table .declared []) inner)
      | some (.table .implied held) =>
        some (put key (.table .declared held) (inner.filter (·.1 ≠ key)))
      | some _ => none)
    path.dropLast .declared entries

/-- Adds one more table under a repeated header. -/
def addElement (path : List String) (entries : Entries) : Option Entries := do
  let key ← path.getLast?
  change false
    (fun _ inner =>
      match inner.lookup key with
      | none => some (put key (.tables [[]]) inner)
      | some (.tables elements) => some (put key (.tables (elements ++ [[]])) inner)
      | some _ => none)
    path.dropLast .declared entries

end Entries

mutual

/-- The value of an item once the document is read. -/
def Item.toValue : Item → Value
  | .value v => v
  | .table _ entries => .table (entriesToValues entries)
  | .tables elements => .array (elementsToValues elements)

def entriesToValues : List (String × Item) → List (String × Value)
  | [] => []
  | (key, item) :: entries => (key, item.toValue) :: entriesToValues entries

def elementsToValues : List (List (String × Item)) → List Value
  | [] => []
  | entries :: elements => .table (entriesToValues entries) :: elementsToValues elements

end

end AssetPipeline.Toml
