/-! What the program says about itself. -/

namespace AssetPipeline.CommandLine

def versionText : String := "assetman 0.2.0\n"

def helpText : String :=
"Generate Ninja build graphs from declarative asset pipeline descriptions

Usage: assetman [OPTIONS] [SRC_PATH]

Arguments:
  [SRC_PATH]  Path to source directory containing the pipeline description (assets.js) [default: .]

Options:
  -v, --verbose  Enable verbose logging (sets log level to DEBUG)
  -h, --help     Print help
  -V, --version  Print version
"

/-- The answer to a command line that makes no sense. -/
def usageText : String :=
"Usage: assetman [OPTIONS] [SRC_PATH]

For more information, try '--help'.
"

def refreshHelpText : String :=
"Rewrite a file list when the files matching its patterns change

Usage: assetman refresh-file-list [OPTIONS] --root <DIR> --output <FILE> <PATTERN>...

Arguments:
  <PATTERN>...  Glob patterns whose matches make up the list

Options:
      --root <DIR>     Source directory the patterns are matched against
      --output <FILE>  File list to update
  -v, --verbose        Enable verbose logging (sets log level to DEBUG)
  -h, --help           Print help
"

def helpHelpText : String :=
"Print this message or the help of the given subcommand(s)

Usage: assetman help [COMMAND]...

Arguments:
  [COMMAND]...  Print help for the subcommand(s)
"

end AssetPipeline.CommandLine
