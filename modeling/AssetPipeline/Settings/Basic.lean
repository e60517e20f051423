import AssetPipeline.Build.Regeneration
import AssetPipeline.Text.Blank
import AssetPipeline.Toml.Document

/-! Settings of the generator. All of them have defaults; a settings file next to the description may
give others, and nothing else. -/

namespace AssetPipeline

structure Settings where
  /-- Description, relative to the source directory. -/
  script : String := defaultScript
  /-- Build file, written into the current directory. -/
  graphFile : String := defaultGraphFile
  /-- List of the matched files, written into the current directory. -/
  fileList : String := defaultFileList
  dirtyMarker : String := defaultDirtyMarker
  /-- Program that generates again; the running one unless given. -/
  generator : Option String := none
  cleanCommand : String := defaultCleanCommand
  deriving DecidableEq

namespace Settings

/-- Keys of a settings file. -/
inductive Key where
  | script
  | graphFile
  | fileList
  | dirtyMarker
  | generator
  | cleanCommand
  deriving DecidableEq, Repr

def Key.all : List Key := [.script, .graphFile, .fileList, .dirtyMarker, .generator, .cleanCommand]

def Key.name : Key → String
  | script => "script"
  | graphFile => "graph_file"
  | fileList => "file_list"
  | dirtyMarker => "dirty_marker"
  | generator => "generator"
  | cleanCommand => "clean_command"

def Key.ofName? (name : String) : Option Key :=
  Key.all.find? (·.name = name)

theorem Key.ofName?_name (key : Key) : Key.ofName? key.name = some key := by
  cases key <;> decide

def set (s : Settings) (text : String) : Key → Settings
  | .script => { s with script := text }
  | .graphFile => { s with graphFile := text }
  | .fileList => { s with fileList := text }
  | .dirtyMarker => { s with dirtyMarker := text }
  | .generator => { s with generator := some text }
  | .cleanCommand => { s with cleanCommand := text }

/-- Why a valid document is no settings file. -/
inductive Fault where
  | unknownKey (name : String)
  /-- The value of a key is no text; items of a list have no key. -/
  | notText (value : Toml.Value) (key : Option String)
  | notSettings (value : Toml.Value)
  | tooMany (count : Nat)

/-- A float as text. Whole numbers keep a point and a zero; infinity has neither, and what is not a
number has no sign. -/
def floatText (value : Float) : String :=
  if value.isNaN then "NaN"
  else
    let magnitude := numberText value.abs
    let pointed :=
      if value.isInf ∨ magnitude.toList.contains '.' then magnitude else magnitude ++ ".0"
    if value.toBits >>> 63 = 1 then "-" ++ pointed else pointed

/-- A value as a message names it. -/
def describe : Toml.Value → String
  | .string text => "string " ++ Text.quoted text
  | .moment text => "string " ++ Text.quoted text
  | .integer value => "integer `" ++ toString value ++ "`"
  | .float value => "floating point `" ++ floatText value ++ "`"
  | .boolean value => "boolean `" ++ (if value then "true" else "false") ++ "`"
  | .array _ => "sequence"
  | .table _ => "map"

def Fault.message : Fault → String
  | unknownKey name =>
    "unknown field `" ++ name ++ "`, expected one of "
      ++ ", ".intercalate (Key.all.map fun key => "`" ++ key.name ++ "`") ++ "\n"
  | notText value key =>
    "invalid type: " ++ describe value ++ ", expected a string\n"
      ++ (match key with
          | some key => "in `" ++ key ++ "`\n"
          | none => "")
  | notSettings value => "invalid type: " ++ describe value ++ ", expected struct Settings\n"
  | tooMany count => "invalid length " ++ toString count ++ ", expected fewer elements in array\n"

/-- The text of a value. A date or time counts as its text. -/
def text? : Toml.Value → Option String
  | .string text => some text
  | .moment text => some text
  | _ => none

/-- Settings changed by the entries of a table, one after another. -/
def setAll (s : Settings) : List (String × Toml.Value) → Except Fault Settings
  | [] => .ok s
  | (name, value) :: entries =>
    match Key.ofName? name with
    | none => .error (.unknownKey name)
    | some key =>
      match text? value with
      | none => .error (.notText value (some name))
      | some text => setAll (s.set text key) entries

/-- Settings changed by a list, which gives them in the order of the keys. -/
def setInOrder (s : Settings) : List Key → List Toml.Value → Except Fault Settings
  | key :: keys, value :: values =>
    match text? value with
    | none => .error (.notText value none)
    | some text => setInOrder (s.set text key) keys values
  | _, _ => .ok s

/-- Settings from a value. Of several faults of a table that of the smallest key counts. -/
def ofValue : Toml.Value → Except Fault Settings
  | .table entries => setAll {} (entries.mergeSort fun a b => a.1 ≤ b.1)
  | .array items =>
    match setInOrder {} Key.all items with
    | .error fault => .error fault
    | .ok s => if Key.all.length < items.length then .error (.tooMany items.length) else .ok s
  | value => .error (.notSettings value)

/-- Settings from a document. An `assetman` entry holds them all, else they are its own entries. -/
def ofDocument (document : Toml.Value) : Except Fault Settings :=
  match document with
  | .table entries => ofValue ((entries.lookup "assetman").getD document)
  | _ => ofValue document

/-- File names, which may not be blank. -/
def fileNames (s : Settings) : List (Key × String) :=
  [(.script, s.script), (.graphFile, s.graphFile), (.fileList, s.fileList),
   (.dirtyMarker, s.dirtyMarker)]

/-- The first file name that is blank. -/
def blankName? (s : Settings) : Option Key :=
  (s.fileNames.find? fun (_, name) => Text.isBlank name).map (·.1)

/-- Options of a run over a source directory. -/
def regenOptions (s : Settings) (srcRoot currentProgram : String) (settingsPath : Option String) :
    RegenOptions where
  program := s.generator.getD currentProgram
  srcRoot := srcRoot
  scriptPath := Path.joinRoot srcRoot s.script
  settingsPath := settingsPath
  graphFile := s.graphFile
  fileList := s.fileList
  dirtyMarker := s.dirtyMarker
  cleanCommand := s.cleanCommand

end Settings

end AssetPipeline
