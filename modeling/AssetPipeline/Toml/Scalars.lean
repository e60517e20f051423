import AssetPipeline.Number.Shortest
import AssetPipeline.Toml.Moment
import AssetPipeline.Toml.Strings

/-! Numbers and other values without parts of a TOML document. -/

namespace AssetPipeline

/-- The double nearest to `digits * 10 ^ exponent`. Beyond the range of doubles no power of ten is
worked out. -/
def nearestDouble (digits : Nat) (exponent : Int) : Float :=
  let place := (Nat.toDigits 10 digits).length + exponent
  if digits = 0 ∨ place < -330 then 0.0
  else if 310 < place then 1.0 / 0.0
  else Float.ofScientific digits (exponent < 0) exponent.natAbs

namespace Toml

namespace Scalars

/-- Digits with single underscores between them, which do not count. -/
def moreDigits (isDigit : Char → Bool) : Text → List Char × Text
  | [] => ([], [])
  | ['_'] => ([], ['_'])
  | '_' :: c :: rest =>
    if isDigit c then
      let (digits, rest) := moreDigits isDigit rest
      (c :: digits, rest)
    else ([], '_' :: c :: rest)
  | c :: rest =>
    if isDigit c then
      let (digits, rest) := moreDigits isDigit rest
      (c :: digits, rest)
    else ([], c :: rest)

/-- One digit or more. -/
def digits? (isDigit : Char → Bool) : Reader (List Char)
  | [] => none
  | c :: rest =>
    if isDigit c then
      let (digits, rest) := moreDigits isDigit rest
      some (c :: digits, rest)
    else none

/-- A whole number without a sign; a zero stands alone. -/
def whole? : Reader (List Char)
  | '0' :: rest => some (['0'], rest)
  | text => digits? Char.isDigit text

/-- A sign, if there is one; `true` is minus. -/
def sign : Text → Bool × Text
  | '+' :: rest => (false, rest)
  | '-' :: rest => (true, rest)
  | text => (false, text)

def signed (negative : Bool) (value : Int) : Int := if negative then -value else value

def isHexDigit (c : Char) : Bool := (Text.digitValue? c).isSome
def isOctalDigit (c : Char) : Bool := '0' ≤ c && c ≤ '7'
def isBinaryDigit (c : Char) : Bool := c = '0' || c = '1'

/-- An integer must fit into 64 bits. -/
def integer? (value : Int) : Option Value :=
  if -0x8000000000000000 ≤ value ∧ value < 0x8000000000000000 then some (.integer value) else none

/-- A whole number after the letter of its base. -/
def based? (base : Nat) (isDigit : Char → Bool) (text : Text) : Option (Value × Text) := do
  let (digits, rest) ← digits? isDigit text
  return (← integer? (Text.digitsValue base digits), rest)

/-- A number with a fraction or an exponent. None that is too great may be written; a negative one
becomes minus infinity. -/
def float? (negative : Bool) (digits fraction : List Char) (exponent : Int) : Option Value :=
  let value := nearestDouble (Text.digitsValue 10 (digits ++ fraction)) (exponent - fraction.length)
  if negative then some (.float (-value))
  else if value.isInf then none
  else some (.float value)

/-- An exponent after its letter. -/
def exponent? (text : Text) : Option (Int × Text) := do
  let (negative, rest) := sign text
  let (digits, rest) ← digits? Char.isDigit rest
  return (signed negative (Text.digitsValue 10 digits), rest)

/-- What follows the whole part of a decimal number. -/
def decimal? (negative : Bool) (digits : List Char) (text : Text) : Option (Value × Text) :=
  match text with
  | '.' :: rest => do
    let (fraction, rest) ← digits? Char.isDigit rest
    let (exponent, rest) ← trailing rest
    return (← float? negative digits fraction exponent, rest)
  | c :: rest =>
    if c = 'e' ∨ c = 'E' then do
      let (exponent, rest) ← exponent? rest
      return (← float? negative digits [] exponent, rest)
    else do return (← integer? (signed negative (Text.digitsValue 10 digits)), text)
  | [] => do return (← integer? (signed negative (Text.digitsValue 10 digits)), [])
where
  trailing : Text → Option (Int × Text)
    | c :: rest => if c = 'e' ∨ c = 'E' then exponent? rest else some (0, c :: rest)
    | [] => some (0, [])

def number? (text : Text) : Option (Value × Text) :=
  match text with
  | '0' :: 'x' :: rest => based? 16 isHexDigit rest
  | '0' :: 'o' :: rest => based? 8 isOctalDigit rest
  | '0' :: 'b' :: rest => based? 2 isBinaryDigit rest
  | text =>
    let (negative, rest) := sign text
    match rest with
    | 'i' :: 'n' :: 'f' :: rest =>
      some (.float (if negative then -1.0 / 0.0 else 1.0 / 0.0), rest)
    | 'n' :: 'a' :: 'n' :: rest => some (.float (0.0 / 0.0), rest)
    | rest => do
      let (digits, rest) ← whole? rest
      decimal? negative digits rest

def moment? (text : Text) : Option (Value × Text) :=
  (Moment.read? .ofDocument text).map fun (written, rest) => (.moment written, rest)

/-- A value without parts. -/
def read (text : Text) : Option (Value × Text) :=
  match text with
  | 't' :: 'r' :: 'u' :: 'e' :: rest => some (.boolean true, rest)
  | 'f' :: 'a' :: 'l' :: 's' :: 'e' :: rest => some (.boolean false, rest)
  | text =>
    match Strings.read text with
    | some (string, rest) => some (.string string, rest)
    | none => (moment? text).or (number? text)

end Scalars

end Toml

end AssetPipeline
