/-! Literals: what a quoted string and a number stand for. -/

namespace AssetPipeline.Script.Literal

/-- The character that a backslash and `c` stand for. -/
def unescape (c : Char) : Char :=
  match c with
  | 'n' => '\n'
  | 't' => '\t'
  | 'r' => '\r'
  | '0' => '\x00'
  | c => c

/-- The text between the quotes of a string. A backslash that ends it stands for nothing. -/
def decode : List Char → List Char
  | [] => []
  | ['\\'] => []
  | '\\' :: c :: body => unescape c :: decode body
  | c :: body => c :: decode body

/-- The text of a string written with its quotes. -/
def unquote (raw : String) : String :=
  String.ofList (decode (raw.toList.drop 1).dropLast)

/-- Value of a run of digits. -/
def digitsValue (digits : List Char) : Nat :=
  digits.foldl (fun value c => 10 * value + (c.toNat - '0'.toNat)) 0

/-- The double nearest to a decimal written as digits, perhaps with a point and a fraction. -/
def number (raw : String) : Float :=
  let whole := raw.toList.takeWhile Char.isDigit
  let fraction := (raw.toList.dropWhile Char.isDigit).drop 1
  Float.ofScientific (digitsValue (whole ++ fraction)) true fraction.length

end AssetPipeline.Script.Literal
