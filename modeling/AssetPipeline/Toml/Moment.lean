import AssetPipeline.Toml.Value

/-! Dates and times: as they are written in a document, and as texts that a table may hold in their
place. Both are brought to one normal form. -/

namespace AssetPipeline.Toml

namespace Moment

/-- The greatest numbers in a time of day and in its offset. -/
structure Bounds where
  hour : Nat
  offsetHour : Nat
  offsetMinute : Nat

def Bounds.ofDocument : Bounds := ⟨23, 23, 59⟩

/-- A text may speak of hour 24, and its offset is bounded as a whole only. -/
def Bounds.ofText : Bounds := ⟨24, 99, 99⟩

/-- Minutes that an offset may have. -/
def maxOffset : Nat := 24 * 60

/-- So many digits, and their value. -/
def fixed? (count : Nat) (text : Text) : Option ((List Char × Nat) × Text) :=
  let digits := text.take count
  if digits.length = count ∧ digits.all Char.isDigit then
    some ((digits, Text.digitsValue 10 digits), text.drop count)
  else none

/-- Two digits of a number in bounds. -/
def field? (low high : Nat) (text : Text) : Option ((List Char × Nat) × Text) := do
  let ((digits, value), rest) ← fixed? 2 text
  guard (low ≤ value ∧ value ≤ high)
  return ((digits, value), rest)

def daysInMonth (year month : Nat) : Nat :=
  if month = 2 then
    if year % 4 = 0 ∧ (year % 100 ≠ 0 ∨ year % 400 = 0) then 29 else 28
  else if month = 4 ∨ month = 6 ∨ month = 9 ∨ month = 11 then 30
  else 31

def date? (text : Text) : Option (List Char × Text) := do
  let ((year, y), rest) ← fixed? 4 text
  let rest ← Text.after? "-" rest
  let ((month, m), rest) ← field? 1 12 rest
  let rest ← Text.after? "-" rest
  let ((day, _), rest) ← field? 1 (daysInMonth y m) rest
  return (year ++ '-' :: month ++ '-' :: day, rest)

/-- A fraction of a second, to the nanosecond and without zeros at its end. -/
def secondFraction : Text → List Char × Text
  | '.' :: c :: rest =>
    if c.isDigit then
      let digits := c :: rest.takeWhile Char.isDigit
      let kept := ((digits.take 9).reverse.dropWhile (· = '0')).reverse
      (if kept = [] then [] else '.' :: kept, rest.dropWhile Char.isDigit)
    else ([], '.' :: c :: rest)
  | text => ([], text)

def timeOfDay? (b : Bounds) (text : Text) : Option (List Char × Text) := do
  let ((hour, _), rest) ← field? 0 b.hour text
  let rest ← Text.after? ":" rest
  let ((minute, _), rest) ← field? 0 59 rest
  let rest ← Text.after? ":" rest
  let ((second, _), rest) ← field? 0 60 rest
  let (fraction, rest) := secondFraction rest
  return (hour ++ ':' :: minute ++ ':' :: second ++ fraction, rest)

/-- A number below a hundred, in two digits. -/
def twoDigits (n : Nat) : List Char :=
  Nat.toDigits 10 (n / 10) ++ Nat.toDigits 10 (n % 10)

/-- A distance from universal time, in whole hours and what is left. None at all is written with a
plus. -/
def offset? (b : Bounds) : Reader (List Char)
  | c :: rest =>
    if c = 'Z' ∨ c = 'z' then some (['Z'], rest)
    else if c = '+' ∨ c = '-' then do
      let ((_, h), rest) ← field? 0 b.offsetHour rest
      let rest ← Text.after? ":" rest
      let ((_, m), rest) ← field? 0 b.offsetMinute rest
      let minutes := 60 * h + m
      guard (minutes ≤ maxOffset)
      let sign := if minutes = 0 then '+' else c
      return (sign :: twoDigits (minutes / 60) ++ ':' :: twoDigits (minutes % 60), rest)
    else none
  | [] => none

/-- A date, with the time of day that may follow it. -/
def dateTime? (b : Bounds) (text : Text) : Option (List Char × Text) := do
  let (date, rest) ← date? text
  match rest with
  | c :: after =>
    if c = 'T' ∨ c = 't' ∨ c = ' ' then
      match timeOfDay? b after with
      | some (time, rest) =>
        match offset? b rest with
        | some (offset, rest) => return (date ++ 'T' :: time ++ offset, rest)
        | none => return (date ++ 'T' :: time, rest)
      | none => return (date, rest)
    else return (date, rest)
  | [] => return (date, [])

/-- A date, a time of day or both, in its normal form. -/
def read? (b : Bounds) (text : Text) : Option (String × Text) :=
  ((dateTime? b text).or (timeOfDay? b text)).map fun (written, rest) =>
    (String.ofList written, rest)

/-- The normal form of a text that is a moment and nothing more. -/
def normalize? (text : String) : Option String :=
  match read? .ofText text.toList with
  | some (written, []) => some written
  | _ => none

/-- A table with this key in the first place stands for a moment. -/
def key : String := "$__toml_private_datetime"

/-- What a table holds under the key of moments, if that is its first. -/
def held? : List (String × Value) → Option Value
  | [] => none
  | (first, value) :: _ => if first = key then some value else none

end Moment

mutual

/-- The value with moments for the tables that stand for one. Such a table holds the moment as text;
entries after it do not count. -/
def Value.withMoments? : Value → Option Value
  | .table entries =>
    match Moment.held? entries with
    | some (.string text) => (Moment.normalize? text).map .moment
    | some _ => none
    | none => (entriesWithMoments? entries).map .table
  | .array items => (itemsWithMoments? items).map .array
  | value => some value

def entriesWithMoments? : List (String × Value) → Option (List (String × Value))
  | [] => some []
  | (name, value) :: entries => do
    return (name, ← value.withMoments?) :: (← entriesWithMoments? entries)

def itemsWithMoments? : List Value → Option (List Value)
  | [] => some []
  | value :: items => do return (← value.withMoments?) :: (← itemsWithMoments? items)

end

end AssetPipeline.Toml
