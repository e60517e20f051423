import AssetPipeline.Build.Regeneration

/-! Command lines. Flags may stand before and after other arguments, `--` ends them, and each option
is given once. What makes no sense is a usage error, which has no other meaning. -/

namespace AssetPipeline

/-- What the program is to do. -/
inductive Command where
  /-- Write the build file for a source directory. -/
  | generate (srcPath : String)
  /-- Bring a list of matched files up to date. -/
  | refresh (root output : String) (patterns : List String)
  deriving DecidableEq

/-- What a command line asks for. -/
inductive Request where
  | run (command : Command)
  | version
  | help
  | refreshHelp
  | helpHelp
  deriving DecidableEq

namespace CommandLine

/-- An argument that can be an option. -/
inductive Argument where
  /-- `--`, after which no argument is an option. -/
  | endOfOptions
  /-- `--name` or `--name=value`. -/
  | long (name : String) (value : Option String)
  /-- Flags of one letter each after a single hyphen. -/
  | short (flags : List Char)
  | plain (text : String)
  deriving DecidableEq

def Argument.ofString (text : String) : Argument :=
  match text.toList with
  | ['-', '-'] => .endOfOptions
  | '-' :: '-' :: rest =>
    let name := String.ofList (rest.takeWhile (· ≠ '='))
    match rest.dropWhile (· ≠ '=') with
    | [] => .long name none
    | _ :: value => .long name (some (String.ofList value))
  | '-' :: flag :: flags => .short (flag :: flags)
  | _ => .plain text

/-- What flags lead to: an answer at once, or the question whether more output is wanted. -/
inductive Flags where
  | answer (request : Request)
  | continue (verbose : Bool)

/-- Reads flags one after another; `onHelp` and `onVersion` say what those two ask for. -/
def readFlags (onHelp : Request) (onVersion : Option Request) (verbose : Bool) :
    List Char → Option Flags
  | [] => some (.continue verbose)
  | 'h' :: _ => some (.answer onHelp)
  | 'V' :: _ => onVersion.map .answer
  | 'v' :: flags => if verbose then none else readFlags onHelp onVersion true flags
  | _ => none

/-- The flag that a long name stands for. -/
def flagOf? (name : String) : Option Char :=
  if name = "help" then some 'h'
  else if name = "version" then some 'V'
  else if name = "verbose" then some 'v'
  else none

/-- Reads a flag or several, by their letters or by a name. A flag takes no value. -/
def readFlagArgument (onHelp : Request) (onVersion : Option Request) (verbose : Bool) :
    Argument → Option Flags
  | .short flags => readFlags onHelp onVersion verbose flags
  | .long name none => do readFlags onHelp onVersion verbose [← flagOf? name]
  | _ => none

/-! Refreshing -/

structure RefreshArguments where
  root : Option String := none
  output : Option String := none
  patterns : List String := []
  verbose : Bool := false

namespace RefreshArguments

/-- Both options and a pattern at least are needed. -/
def finish (a : RefreshArguments) : Option Request := do
  guard (a.patterns ≠ [])
  return .run (.refresh (← a.root) (← a.output) a.patterns)

/-- Sets an option that takes a path, which may not be empty. -/
def setOption? (a : RefreshArguments) (name value : String) : Option RefreshArguments :=
  if value = "" then none
  else if name = "root" ∧ a.root.isNone then some { a with root := some value }
  else if name = "output" ∧ a.output.isNone then some { a with output := some value }
  else none

/-- Reads the arguments after the subcommand. The value of an option is what follows `=`, or the next
argument unless that is an option itself. -/
def read (a : RefreshArguments) : List String → Option Request
  | [] => a.finish
  | text :: rest =>
    match Argument.ofString text with
    | .endOfOptions => finish { a with patterns := a.patterns ++ rest }
    | .plain pattern => read { a with patterns := a.patterns ++ [pattern] } rest
    | .long name value =>
      if name = "root" ∨ name = "output" then
        match value, rest with
        | some value, rest => do read (← a.setOption? name value) rest
        | none, next :: rest =>
          match Argument.ofString next with
          | .plain value => do read (← a.setOption? name value) rest
          | _ => none
        | none, [] => none
      else
        match readFlagArgument .refreshHelp none a.verbose (.long name value) with
        | some (.answer request) => some request
        | some (.continue verbose) => read { a with verbose } rest
        | none => none
    | .short flags =>
      match readFlags .refreshHelp none a.verbose flags with
      | some (.answer request) => some request
      | some (.continue verbose) => read { a with verbose } rest
      | none => none

end RefreshArguments

/-! Generating, and the choice of the command -/

/-- Help on a subcommand, by its name. -/
def readHelp : List String → Option Request
  | [] => some .help
  | [name] =>
    if name = refreshCommand then some .refreshHelp
    else if name = "help" then some .helpHelp
    else none
  | _ => none

structure GenerateArguments where
  srcPath : Option String := none
  verbose : Bool := false

namespace GenerateArguments

/-- Without a path the current directory is meant. -/
def finish (a : GenerateArguments) : Request :=
  .run (.generate (a.srcPath.getD "."))

/-- Sets the path, which may not be empty. There is only one. -/
def setPath? (a : GenerateArguments) (path : String) : Option GenerateArguments :=
  if path = "" ∨ a.srcPath.isSome then none else some { a with srcPath := some path }

/-- Reads paths where no argument is an option any more. -/
def readPaths (a : GenerateArguments) : List String → Option Request
  | [] => some a.finish
  | path :: rest => do readPaths (← a.setPath? path) rest

def read (a : GenerateArguments) : List String → Option Request
  | [] => some a.finish
  | text :: rest =>
    match Argument.ofString text with
    | .endOfOptions => a.readPaths rest
    | .plain path => do read (← a.setPath? path) rest
    | flags =>
      match readFlagArgument .help (some .version) a.verbose flags with
      | some (.answer request) => some request
      | some (.continue verbose) => read { a with verbose } rest
      | none => none

end GenerateArguments

/-- What a command line asks for, or nothing if it is a usage error. A subcommand comes first. -/
def parse (args : List String) : Option Request :=
  match args with
  | first :: rest =>
    if first = refreshCommand then RefreshArguments.read {} rest
    else if first = "help" then readHelp rest
    else GenerateArguments.read {} (first :: rest)
  | [] => GenerateArguments.read {} []

end CommandLine

end AssetPipeline
