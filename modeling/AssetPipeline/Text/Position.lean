/-! Places in a text. An offset counts the bytes of the text's UTF-8 form; a reader is shown a line
and a column instead, both counted from one, the column in characters. -/

namespace AssetPipeline

structure Position where
  line : Nat
  column : Nat
  deriving DecidableEq, Repr

namespace Position

/-- The first place of every text. -/
def start : Position := ⟨1, 1⟩

/-- The place after a character that stands at this one. -/
def step (p : Position) (c : Char) : Position :=
  if c = '\n' then ⟨p.line + 1, 1⟩ else ⟨p.line, p.column + 1⟩

/-- The place reached from `p` over the characters that fit into `offset` bytes. -/
def advance (p : Position) : List Char → Nat → Position
  | [], _ => p
  | c :: text, offset =>
    if c.utf8Size ≤ offset then advance (p.step c) text (offset - c.utf8Size) else p

/-- The place of a byte offset. An offset beyond the end is the end's place. -/
def ofOffset (source : String) (offset : Nat) : Position :=
  start.advance source.toList offset

@[simp] theorem advance_zero (p : Position) (text : List Char) : p.advance text 0 = p := by
  cases text with
  | nil => rfl
  | cons c text =>
    have := c.utf8Size_pos
    simp only [advance]
    rw [if_neg (by omega)]

@[simp] theorem ofOffset_zero (source : String) : ofOffset source 0 = start :=
  advance_zero start source.toList

end Position

end AssetPipeline
