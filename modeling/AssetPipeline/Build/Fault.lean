import AssetPipeline.Files.Listing
import AssetPipeline.Glob.Parser
import AssetPipeline.Graph
import AssetPipeline.Script.Fault

/-! Why no build file can be made. -/

namespace AssetPipeline

/-- What is wrong with declarations, whatever files there are. A builder is named by its verb and its
pattern. -/
inductive DeclarationFault where
  | reservedRule (name : String)
  | invalidRuleName (name : String)
  | missingCommand (rule : String)
  | commandLineBreak (rule : String)
  | missingRule (verb pattern : String)
  | undeclaredRule (verb pattern rule : String)
  | patternLineBreak (verb pattern : String)
  | targetLineBreak (verb pattern : String)
  | invalidVariable (verb pattern key : String)
  | valueLineBreak (verb pattern key : String)
  | missingTarget (pattern : String)
  deriving DecidableEq

namespace DeclarationFault

/-- A builder as a description declares it. -/
def builder (verb pattern : String) : String :=
  verb ++ "('" ++ pattern ++ "')"

def message : DeclarationFault → String
  | reservedRule name => "rule name '" ++ name ++ "' is reserved for generated edges"
  | invalidRuleName name =>
    "rule name '" ++ name ++ "' is not valid; use letters, digits, '_', '.' or '-'"
  | missingCommand rule => "rule '" ++ rule ++ "' has no command"
  | commandLineBreak rule => "rule '" ++ rule ++ "' has a line break in its command"
  | missingRule verb pattern => builder verb pattern ++ " has no rule; add .using('<rule>')"
  | undeclaredRule verb pattern rule =>
    builder verb pattern ++ " uses undeclared rule '" ++ rule ++ "'"
  | patternLineBreak verb pattern =>
    verb ++ "(" ++ Text.quoted pattern ++ ") has a line break in its pattern"
  | targetLineBreak verb pattern => builder verb pattern ++ " has a line break in a target"
  | invalidVariable verb pattern key =>
    builder verb pattern ++ " assigns invalid variable name '" ++ key ++ "'"
  | valueLineBreak verb pattern key =>
    builder verb pattern ++ " has a line break in the value of '" ++ key ++ "'"
  | missingTarget pattern =>
    builder "single" pattern ++ " has no target; add .to(...) or .toExt(...)"

end DeclarationFault

inductive BuildFault where
  | missingScript (path : String)
  | script (path : String) (error : Script.Error)
  | invalidPattern (pattern : String) (fault : Glob.Fault)
  | sourceDirectory (root : String) (fault : ListingFault)
  | declaration (fault : DeclarationFault)
  /-- An edge of the builder with the given verb and pattern does not fit into the graph. -/
  | edge (verb pattern : String) (error : GraphError)
  | graph (error : GraphError)
  | unreadableScript (fault : FileFault)
  deriving DecidableEq

def BuildFault.message : BuildFault → String
  | missingScript path => "pipeline description not found: " ++ path
  | script path error => "failed to evaluate " ++ path ++ ": " ++ error.message
  | invalidPattern pattern fault =>
    "invalid pattern '" ++ pattern ++ "': error parsing glob '" ++ pattern ++ "': " ++ fault.message
  | sourceDirectory root fault => "cannot read source directory " ++ root ++ ": " ++ fault.message
  | declaration fault => "configuration error: " ++ fault.message
  | edge verb pattern error => DeclarationFault.builder verb pattern ++ ": " ++ error.message
  | graph error => error.message
  | unreadableScript fault => fault.message

end AssetPipeline
