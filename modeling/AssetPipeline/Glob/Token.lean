import AssetPipeline.Glob.Shape

/-! Tokens of a glob pattern, and the paths they stand for. Patterns are written in characters, paths
are compared byte by byte. -/

namespace AssetPipeline.Glob

inductive Token where
  | literal (c : Char)
  /-- `?` -/
  | any
  /-- `*` -/
  | star
  /-- `**` in front: no directory or any number of them. -/
  | anyBefore
  /-- `**` at the end: all that lies below. -/
  | anyBelow
  /-- `**` between separators. -/
  | anyBetween
  /-- A character class, as closed ranges. -/
  | oneOf (negated : Bool) (ranges : List (Char × Char))
  /-- Braces. -/
  | alternates (branches : List (List Token))
  deriving Repr

def slash : UInt8 := '/'.toUInt8

/-- The bytes of a character in UTF-8. -/
def utf8 (c : Char) : Bytes :=
  String.utf8EncodeChar c

/-- The ranges of bytes that a range of characters adds to a class. The bytes of both ends are items
of their own, but for the last of the lower and the first of the upper end, which are joined. -/
def byteRanges (range : Char × Char) : List (UInt8 × UInt8) :=
  let single (b : UInt8) := (b, b)
  if range.1 = range.2 then (utf8 range.1).map single
  else
    match (utf8 range.1).reverse, utf8 range.2 with
    | low :: before, high :: after => before.reverse.map single ++ (low, high) :: after.map single
    | _, _ => []

/-- Whether a byte is in a class. -/
def inClass (negated : Bool) (ranges : List (Char × Char)) (b : UInt8) : Bool :=
  (ranges.flatMap byteRanges).any (fun (low, high) => low ≤ b && b ≤ high) != negated

def Shape.ofBytes : Bytes → Shape
  | [] => .empty
  | b :: bytes => .seq (.byte (· = b)) (ofBytes bytes)

/-- Any bytes at all. -/
def Shape.anything : Shape := .many fun _ => true

/-- A separator. -/
def Shape.separator : Shape := .byte (· = slash)

mutual

/-- What a token stands for. Braces around nothing are as if they were not written. -/
def Token.shape? : Token → Option Shape
  | .literal c => some (.ofBytes (utf8 c))
  | .any => some (.byte (· ≠ slash))
  | .star => some (.many (· ≠ slash))
  | .anyBefore => some (.either (.either .empty .separator) (.seq .anything .separator))
  | .anyBelow => some (.seq .separator .anything)
  | .anyBetween => some (.either .separator (.seq .separator (.seq .anything .separator)))
  | .oneOf negated ranges => some (.byte (inClass negated ranges))
  | .alternates branches => branchesShape? branches

/-- What tokens in sequence stand for. -/
def tokensShape? : List Token → Option Shape
  | [] => none
  | t :: ts =>
    match t.shape?, tokensShape? ts with
    | some first, some second => some (.seq first second)
    | some only, none => some only
    | none, rest => rest

/-- What the branches in braces stand for; empty ones do not count. -/
def branchesShape? : List (List Token) → Option Shape
  | [] => none
  | branch :: branches =>
    match tokensShape? branch, branchesShape? branches with
    | some left, some right => some (.either left right)
    | some only, none => some only
    | none, rest => rest

end

/-- What a whole pattern stands for. A pattern that is `**` alone stands for everything. -/
def patternShape : List Token → Shape
  | [.anyBefore] => .anything
  | tokens => (tokensShape? tokens).getD .empty

end AssetPipeline.Glob
