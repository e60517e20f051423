import AssetPipeline.Build.Fault
import AssetPipeline.Settings.Basic

/-! Why a command fails. -/

namespace AssetPipeline

inductive Failure where
  | build (fault : BuildFault)
  | createDirectory (path : String) (fault : FileFault)
  | writeFile (path : String) (fault : FileFault)
  | writeBuildFile (path : String) (fault : FileFault)
  | readSettings (path : String) (fault : FileFault)
  | settingsSyntax (path : String)
  | settings (path : String) (fault : Settings.Fault)
  | blankSetting (path : String) (key : Settings.Key)

namespace Failure

def message : Failure → String
  | build fault => fault.message
  | createDirectory path _ => "Failed creating directory: " ++ path
  | writeFile path _ => "Failed writing " ++ path
  | writeBuildFile path _ => "Failed writing build graph: " ++ path
  | readSettings path _ => "Failed reading settings file: " ++ path
  | settingsSyntax path => "Invalid TOML syntax: " ++ path
  | settings path _ => "Invalid settings: " ++ path
  | blankSetting path key =>
    "Invalid settings: " ++ key.name ++ " must not be empty (" ++ path ++ ")"

/-- What lies behind the message, if more is known than that. -/
def cause? : Failure → Option String
  | build (.script _ error) => some error.message
  | build (.edge _ _ error) => some error.message
  | build _ => none
  | createDirectory _ fault => some fault.message
  | writeFile _ fault => some fault.message
  | writeBuildFile _ fault => some fault.message
  | readSettings _ fault => some fault.message
  | settingsSyntax _ => none
  | settings _ fault => some fault.message
  | blankSetting _ _ => none

end Failure

end AssetPipeline
