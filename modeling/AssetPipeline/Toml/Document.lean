import AssetPipeline.Toml.Scalars
import AssetPipeline.Toml.Table

/-! Reading a TOML document. -/

namespace AssetPipeline.Toml

/-- Nesting of arrays and inline tables, and parts of a dotted key. -/
def maxNesting : Nat := 80

def isBareKeyChar (c : Char) : Bool := c.isAlphanum || c = '-' || c = '_'

/-- One part of a key. -/
def readKeyPart (text : Text) : Option (String × Text) :=
  match text.takeWhile isBareKeyChar with
  | [] => Strings.readShort text
  | bare => some (String.ofList bare, text.dropWhile isBareKeyChar)

/-- A dotted key, with the blanks around it. It has at most as many parts as the text has characters. -/
def readKey (text : Text) : Option (List String × Text) := do
  let (path, rest) ← parts text.length text
  guard (path.length < maxNesting)
  return (path, rest)
where
  parts : Nat → Text → Option (List String × Text)
    | 0, _ => none
    | bound + 1, text => do
      let (part, rest) ← readKeyPart (Text.skipBlanks text)
      match Text.skipBlanks rest with
      | '.' :: rest =>
        let (path, rest) ← parts bound rest
        return (part :: path, rest)
      | rest => return ([part], rest)

mutual

/-- A value at a depth of nesting. Every step takes a character or leads to one that does, so twice as
many steps are enough as the text has characters. -/
def readValue (steps depth : Nat) (text : Text) : Option (Value × Text) :=
  match steps, text with
  | 0, _ => none
  | steps + 1, '[' :: rest =>
    if maxNesting ≤ depth + 1 then none
    else (readItems steps (depth + 1) rest).map fun (items, rest) => (.array items, rest)
  | steps + 1, '{' :: rest =>
    if maxNesting ≤ depth + 1 then none
    else
      match Text.skipBlanks rest with
      | '}' :: rest => some (.table [], rest)
      | rest => do
        let (entries, rest) ← readFields steps (depth + 1) [] rest
        return (.table (entriesToValues entries), rest)
  | _ + 1, text => Scalars.read text

/-- The items of an array, after its opening bracket or a comma. -/
def readItems (steps depth : Nat) (text : Text) : Option (List Value × Text) :=
  match steps with
  | 0 => none
  | steps + 1 =>
    match Text.skipLines text with
    | ']' :: rest => some ([], rest)
    | text => do
      let (first, rest) ← readValue steps depth text
      match Text.skipLines rest with
      | ',' :: rest =>
        let (items, rest) ← readItems steps depth rest
        return (first :: items, rest)
      | ']' :: rest => return ([first], rest)
      | _ => none

/-- The fields of an inline table up to its closing brace. -/
def readFields (steps depth : Nat) (entries : Entries) (text : Text) : Option (Entries × Text) :=
  match steps with
  | 0 => none
  | steps + 1 => do
    let (path, rest) ← readKey text
    let rest ← Text.after? "=" rest
    let (value, rest) ← readValue steps depth (Text.skipBlanks rest)
    let entries ← entries.addValue path value
    match Text.skipBlanks rest with
    | ',' :: rest => readFields steps depth entries rest
    | '}' :: rest => return (entries, rest)
    | _ => none

end

/-- What was read of a document: its entries, and the path of the table that keys are added to. -/
structure Progress where
  entries : Entries := []
  current : List String := []

namespace Progress

def addValue (p : Progress) (path : List String) (v : Value) : Option Progress := do
  let add (_ : TableKind) (inner : Entries) := Entries.addValue path v inner
  return { p with entries := ← Entries.change false add p.current .declared p.entries }

/-- Reads one line: a header, a key with its value, or nothing. -/
def readLine (p : Progress) (text : Text) : Option (Progress × Text) :=
  match Text.skipBlanks text with
  | '[' :: '[' :: rest => do
    let (path, rest) ← readKey rest
    let rest ← Text.after? "]]" rest
    return (⟨← p.entries.addElement path, path⟩, ← Text.endOfLine? rest)
  | '[' :: rest => do
    let (path, rest) ← readKey rest
    let rest ← Text.after? "]" rest
    return (⟨← p.entries.addTable path, path⟩, ← Text.endOfLine? rest)
  | text =>
    match Text.endOfLine? text with
    | some rest => some (p, rest)
    | none => do
      let (path, rest) ← readKey text
      let rest ← Text.after? "=" rest
      let (value, rest) ← readValue (2 * rest.length + 2) 0 (Text.skipBlanks rest)
      return (← p.addValue path value, ← Text.endOfLine? rest)

/-- Reads all lines. Each takes a character at least, so there are at most as many as characters. -/
def readLines : Nat → Progress → Text → Option Entries
  | _, p, [] => some p.entries
  | 0, _, _ => none
  | bound + 1, p, text => do
    let (p, rest) ← p.readLine text
    readLines bound p rest

end Progress

/-- The value of a document, which may begin with a byte order mark. Nothing if it is not valid. -/
def parse (source : String) : Option Value := do
  let text :=
    match source.toList with
    | '\ufeff' :: text => text
    | text => text
  let entries ← Progress.readLines text.length {} text
  (Value.table (entriesToValues entries)).withMoments?

end AssetPipeline.Toml
