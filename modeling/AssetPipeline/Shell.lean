/-! Words of a POSIX shell command. -/

namespace AssetPipeline.Shell

/-- Characters that no shell reads as anything but themselves, wherever they stand in a word. -/
def isPlain (c : Char) : Bool :=
  c.isAlphanum || "_-./:=@%+,".toList.contains c

/-- The text between single quotes. A quote inside closes them, stands escaped, and opens them
again. -/
def escapeQuotes : List Char → List Char
  | [] => []
  | c :: word => if c = '\'' then '\'' :: '\\' :: '\'' :: '\'' :: escapeQuotes word else c :: escapeQuotes word

/-- A word that the shell reads back as `word`. Plain words are left readable, all others are
quoted. -/
def quote (word : String) : String :=
  if word ≠ "" ∧ word.toList.all isPlain then word
  else String.ofList ('\'' :: escapeQuotes word.toList ++ ['\''])

/-- Words as one command line, each quoted. -/
def join (words : List String) : String :=
  " ".intercalate (words.map quote)

end AssetPipeline.Shell
