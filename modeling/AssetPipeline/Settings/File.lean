import AssetPipeline.Failure
import AssetPipeline.Files.Workspace

/-! The settings file of a source directory. -/

namespace AssetPipeline

def settingsFileName : String := "assetman.toml"

/-- Settings, and the file they come from if there is one. -/
structure LoadedSettings where
  settings : Settings := {}
  path : Option String := none
  deriving DecidableEq

/-- Settings from the text of the file at `path`. -/
def Settings.read (path source : String) : Except Failure Settings :=
  match Toml.parse source with
  | none => .error (.settingsSyntax path)
  | some document =>
    match Settings.ofDocument document with
    | .error fault => .error (.settings path fault)
    | .ok s =>
      match s.blankName? with
      | some key => .error (.blankSetting path key)
      | none => .ok s

/-- Settings for a source directory: those of its settings file, or the defaults without one. A file
that cannot be used is an error, since it is there on purpose. -/
def loadSettings (w : Workspace) (srcRoot : String) : Except Failure LoadedSettings :=
  let path := Path.below srcRoot settingsFileName
  if ¬ w.isFile path then .ok {}
  else
    match w.readText path with
    | .error fault => .error (.readSettings path fault)
    | .ok source => do return ⟨← Settings.read path source, some path⟩

end AssetPipeline
