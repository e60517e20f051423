/-! Text in a Ninja build file: what can be written, and how it is escaped. -/

namespace AssetPipeline.Ninja

/-- A line break cannot be written at all: there is no escape for it. -/
def hasLineBreak (text : String) : Bool :=
  text.toList.any fun c => c = '\n' || c = '\r'

def isNameChar (c : Char) : Bool :=
  c.isAlphanum || c = '_' || c = '.' || c = '-'

/-- Whether `name` can be written as the name of a rule or a variable. -/
def isValidName (name : String) : Bool :=
  name ≠ "" && name.toList.all isNameChar

/-- A character of a path. Space and colon would end it, and `$` would start an escape. -/
def escapePathChar (c : Char) : List Char :=
  if c = '$' ∨ c = ' ' ∨ c = ':' then ['$', c] else [c]

/-- A path on a `build` or `default` line. -/
def escapePath (path : String) : String :=
  String.ofList (path.toList.flatMap escapePathChar)

/-- Literal text in the value of a variable, where only `$` is special. -/
def escapeValue (value : String) : String :=
  String.ofList (value.toList.flatMap fun c => if c = '$' then ['$', '$'] else [c])

def joinPaths (paths : List String) : String :=
  " ".intercalate (paths.map escapePath)

end AssetPipeline.Ninja
