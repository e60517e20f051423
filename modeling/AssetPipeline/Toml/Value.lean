/-! Values of a TOML document. -/

namespace AssetPipeline.Toml

inductive Value where
  | string (text : String)
  | integer (value : Int)
  | float (value : Float)
  | boolean (value : Bool)
  /-- A date, a time of day or both, in its normal form. -/
  | moment (text : String)
  | array (items : List Value)
  | table (entries : List (String × Value))

/-- What is left of a document to read. -/
abbrev Text := List Char

/-- Reads something from the front of a text, if it stands there. -/
abbrev Reader (α : Type) := Text → Option (α × Text)

namespace Text

def isBlank (c : Char) : Bool := c = ' ' || c = '\t'

/-- Characters that may stand in comments and strings: no controls but the tab. -/
def isPrintable (c : Char) : Bool := c = '\t' || (' ' ≤ c && c ≠ '\x7f')

/-- The value of a digit, up to base sixteen. -/
def digitValue? (c : Char) : Option Nat :=
  if c.isDigit then some (c.toNat - '0'.toNat)
  else if 'a' ≤ c ∧ c ≤ 'f' then some (c.toNat - 'a'.toNat + 10)
  else if 'A' ≤ c ∧ c ≤ 'F' then some (c.toNat - 'A'.toNat + 10)
  else none

def digitsValue (base : Nat) (digits : List Char) : Nat :=
  digits.foldl (fun value c => base * value + (digitValue? c).getD 0) 0

def skipBlanks (text : Text) : Text := text.dropWhile isBlank

/-- The text after the given one. -/
def after? (expected : String) (text : Text) : Option Text :=
  if expected.toList.isPrefixOf text then some (text.drop expected.length) else none

/-- The text after a line break. -/
def newline? : Text → Option Text
  | '\n' :: text => some text
  | '\r' :: '\n' :: text => some text
  | _ => none

/-- The text after a comment, if one stands there. -/
def skipComment : Text → Text
  | '#' :: text => text.dropWhile isPrintable
  | text => text

/-- The text after the end of a line, which may hold blanks and a comment. -/
def endOfLine? (text : Text) : Option Text :=
  match skipComment (skipBlanks text) with
  | [] => some []
  | rest => newline? rest

theorem length_skipBlanks_le (text : Text) : (skipBlanks text).length ≤ text.length :=
  (List.dropWhile_sublist _).length_le

theorem length_skipComment_le (text : Text) : (skipComment text).length ≤ text.length := by
  unfold skipComment
  split
  · have := (List.dropWhile_sublist isPrintable (l := ‹Text›)).length_le
    simp only [List.length_cons]
    omega
  · exact Nat.le_refl _

theorem length_lt_of_newline? {text rest : Text} (h : newline? text = some rest) :
    rest.length < text.length := by
  unfold newline? at h
  split at h
  · simp only [Option.some.injEq] at h
    subst h
    simp
  · simp only [Option.some.injEq] at h
    subst h
    simp only [List.length_cons]
    omega
  · simp at h

/-- Skips blanks, line breaks and comments that a line break ends. -/
def skipLines (text : Text) : Text :=
  match _h : newline? (skipComment (skipBlanks text)) with
  | some rest => skipLines rest
  | none => skipBlanks text
termination_by text.length
decreasing_by
  have := length_lt_of_newline? _h
  have := length_skipComment_le (skipBlanks text)
  have := length_skipBlanks_le text
  omega

end Text

end AssetPipeline.Toml
