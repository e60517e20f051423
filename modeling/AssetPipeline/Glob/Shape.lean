/-! Shapes of byte strings, and which texts have one. The table of a shape says of every end piece of
a text whether the shape can begin there and be followed by what is wanted, so one pass over the text
decides each part of a shape. -/

namespace AssetPipeline.Glob

abbrev Bytes := List UInt8

inductive Shape where
  | empty
  /-- One byte. -/
  | byte (accepts : UInt8 → Bool)
  /-- Any number of bytes. -/
  | many (accepts : UInt8 → Bool)
  | seq (first second : Shape)
  | either (left right : Shape)

namespace Shape

/-- The texts that have a shape. -/
def Holds : Shape → Bytes → Prop
  | empty, text => text = []
  | byte accepts, text => ∃ b, text = [b] ∧ accepts b = true
  | many accepts, text => ∀ b ∈ text, accepts b = true
  | seq first second, text => ∃ u v, text = u ++ v ∧ first.Holds u ∧ second.Holds v
  | either left right, text => left.Holds text ∨ right.Holds text

/-- One answer for every end piece of a text, the whole text first and the empty one last. -/
abbrev Table := List Bool

namespace Table

/-- The answer for the whole text. -/
def whole (table : Table) : Bool := table.headD false

/-- The table of what nothing may follow. -/
def atEnd : Bytes → Table
  | [] => [true]
  | _ :: text => false :: atEnd text

/-- The table of one accepted byte, by the table of what follows it. -/
def ofByte (accepts : UInt8 → Bool) : Bytes → Table → Table
  | [], _ => [false]
  | b :: text, after => (accepts b && whole after.tail) :: ofByte accepts text after.tail

/-- The table of any number of accepted bytes, by the table of what follows them. -/
def ofMany (accepts : UInt8 → Bool) : Bytes → Table → Table
  | [], after => [whole after]
  | b :: text, after =>
    let rest := ofMany accepts text after.tail
    (whole after || (accepts b && whole rest)) :: rest

/-- The table of a predicate on end pieces. -/
def ofPredicate (p : Bytes → Bool) : Bytes → Table
  | [] => [p []]
  | b :: text => p (b :: text) :: ofPredicate p text

@[simp] theorem whole_ofPredicate (p : Bytes → Bool) (text : Bytes) :
    whole (ofPredicate p text) = p text := by
  cases text <;> rfl

end Table

/-- The table of a shape, by the table of what follows it. -/
def table (text : Bytes) : Shape → Table → Table
  | empty, after => after
  | byte accepts, after => Table.ofByte accepts text after
  | many accepts, after => Table.ofMany accepts text after
  | seq first second, after => first.table text (second.table text after)
  | either left right, after => List.zipWith (· || ·) (left.table text after) (right.table text after)

/-- Whether the whole text has the shape. -/
def accepts (shape : Shape) (text : Bytes) : Bool :=
  Table.whole (shape.table text (Table.atEnd text))

end Shape

end AssetPipeline.Glob
