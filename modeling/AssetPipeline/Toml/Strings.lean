import AssetPipeline.Toml.Value

/-! Strings of a TOML document: between one quote or three, with escapes or without. -/

namespace AssetPipeline.Toml.Strings

def hexValue? (digits : List Char) : Option Nat :=
  digits.foldlM (fun value c => (Text.digitValue? c).map (16 * value + ·)) 0

/-- The character that a number of hexadecimal digits stands for. -/
def numbered? (count : Nat) (text : Text) : Option (Char × Nat) := do
  let digits := text.take count
  guard (digits.length = count)
  let code ← hexValue? digits
  guard code.isValidChar
  return (Char.ofNat code, count + 1)

/-- What stands after a backslash: the character meant, and the number of characters it takes. -/
def escape? : Text → Option (Char × Nat)
  | 'b' :: _ => some ('\x08', 1)
  | 't' :: _ => some ('\t', 1)
  | 'n' :: _ => some ('\n', 1)
  | 'f' :: _ => some ('\x0c', 1)
  | 'r' :: _ => some ('\r', 1)
  | '"' :: _ => some ('"', 1)
  | '\\' :: _ => some ('\\', 1)
  | 'u' :: text => numbered? 4 text
  | 'U' :: text => numbered? 8 text
  | _ => none

/-- A string with escapes, after its opening quote. -/
def basic : Reader (List Char)
  | [] => none
  | '"' :: rest => some ([], rest)
  | '\\' :: rest =>
    match escape? rest with
    | some (c, n) => (basic (rest.drop n)).map fun (body, rest) => (c :: body, rest)
    | none => none
  | c :: rest =>
    if Text.isPrintable c then (basic rest).map fun (body, rest) => (c :: body, rest) else none
termination_by text => text.length
decreasing_by all_goals simp only [List.length_cons, List.length_drop]; omega

/-- A string without escapes, after its opening quote. -/
def literal (text : Text) : Option (List Char × Text) :=
  match text.dropWhile fun c => Text.isPrintable c && c ≠ '\'' with
  | '\'' :: rest => some (text.takeWhile fun c => Text.isPrintable c && c ≠ '\'', rest)
  | _ => none

/-- Three closing quotes. Up to two quotes before them belong to the string. -/
def closing? (quote : Char) (text : Text) : Option (List Char × Text) :=
  let quotes := (text.takeWhile (· = quote)).length
  if quotes < 3 then none
  else
    let kept := min (quotes - 3) 2
    some (List.replicate kept quote, text.drop (kept + 3))

/-- The text after a backslash that ends a line, and after all blanks and line breaks that follow. -/
def joined? (text : Text) : Option Text :=
  (Text.newline? (Text.skipBlanks text)).map skipSpace
where
  skipSpace : Text → Text
    | ' ' :: text => skipSpace text
    | '\t' :: text => skipSpace text
    | '\n' :: text => skipSpace text
    | '\r' :: '\n' :: text => skipSpace text
    | text => text

theorem length_skipSpace_le (text : Text) : (joined?.skipSpace text).length ≤ text.length := by
  fun_induction joined?.skipSpace text
  case case5 => exact Nat.le_refl _
  all_goals simp only [List.length_cons]; omega

theorem length_le_of_joined? {text rest : Text} (h : joined? text = some rest) :
    rest.length ≤ text.length := by
  obtain ⟨line, hline, rfl⟩ := Option.map_eq_some_iff.1 h
  have := length_skipSpace_le line
  have := Text.length_lt_of_newline? hline
  have := Text.length_skipBlanks_le text
  omega

/-- A string of several lines, after its opening quotes. -/
def long (quote : Char) (escapes : Bool) (text : Text) : Option (List Char × Text) :=
  match closing? quote text with
  | some closed => some closed
  | none =>
    match text with
    | [] => none
    | '\r' :: '\n' :: rest => (long quote escapes rest).map fun (body, rest) => ('\n' :: body, rest)
    | c :: rest =>
      if c = '\\' ∧ escapes then
        match _h : joined? rest with
        | some rest => long quote escapes rest
        | none =>
          match escape? rest with
          | some (c, n) => (long quote escapes (rest.drop n)).map fun (body, rest) => (c :: body, rest)
          | none => none
      else if Text.isPrintable c ∨ c = '\n' then
        (long quote escapes rest).map fun (body, rest) => (c :: body, rest)
      else none
termination_by text.length
decreasing_by
  all_goals simp only [List.length_cons, List.length_drop]
  any_goals have := length_le_of_joined? _h
  all_goals omega

/-- A string with its quotes. A line break right after three opening quotes is not part of it. -/
def read (text : Text) : Option (String × Text) :=
  (body text).map fun (chars, rest) => (String.ofList chars, rest)
where
  afterBreak (text : Text) : Text := (Text.newline? text).getD text
  body : Reader (List Char)
    | '"' :: '"' :: '"' :: rest => long '"' true (afterBreak rest)
    | '\'' :: '\'' :: '\'' :: rest => long '\'' false (afterBreak rest)
    | '"' :: rest => basic rest
    | '\'' :: rest => literal rest
    | _ => none

/-- A string on one line, as keys are quoted. -/
def readShort (text : Text) : Option (String × Text) :=
  (body text).map fun (chars, rest) => (String.ofList chars, rest)
where
  body : Reader (List Char)
    | '"' :: rest => basic rest
    | '\'' :: rest => literal rest
    | _ => none

end AssetPipeline.Toml.Strings
