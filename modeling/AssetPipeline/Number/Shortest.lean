import AssetPipeline.Number.Binary

/-! The decimal that a double is written as: the fewest digits that read back as it, and of those
the nearest to its value. -/

namespace AssetPipeline

namespace Decimal

/-- The same value without zeros at the end of its digits. -/
def normalize (d : Decimal) : Decimal :=
  if h : d.digits ≠ 0 ∧ d.digits % 10 = 0 then
    normalize ⟨d.digits / 10, d.exponent + 1⟩
  else d
termination_by d.digits
decreasing_by exact Nat.div_lt_self (Nat.pos_of_ne_zero h.1) (by decide)

/-- The decimal without an exponent: zeros fill the places up to the point, and a point stands only
before digits. -/
def positional (d : Decimal) : String :=
  let digits := Nat.toDigits 10 d.digits
  if 0 ≤ d.exponent then String.ofList (digits ++ List.replicate d.exponent.toNat '0')
  else
    let places := (-d.exponent).toNat
    let padded := List.replicate (places + 1 - digits.length) '0' ++ digits
    let whole := padded.length - places
    String.ofList (padded.take whole ++ '.' :: padded.drop whole)

end Decimal

namespace Binary

/-- The number of places before the point that the leading digit of a value stands at: the least `k`
with `x < 10 ^ k`. -/
def leadingPlace (x : Binary) : Int :=
  let whole := x.numerator / x.denominator
  if whole ≠ 0 then (Nat.toDigits 10 whole).length
  else
    let zeros := (Nat.toDigits 10 (x.denominator / x.numerator)).length - 1
    if x.denominator ≤ x.numerator * Nat.pow 10 zeros then 1 - (zeros : Int) else -(zeros : Int)

/-- The multiples of `10 ^ place` on both sides of the value. -/
def neighbours (x : Binary) (place : Int) : Decimal × Decimal :=
  let below :=
    x.numerator * Nat.pow 10 (-place).toNat / (x.denominator * Nat.pow 10 place.toNat)
  (⟨below, place⟩, ⟨below + 1, place⟩)

/-- The value is nearer to the multiple below; at the middle the one above is taken. -/
def nearerBelow (x : Binary) (below : Decimal) : Bool :=
  compareScaled (2 * below.digits + 1) below.exponent (2 * x.significand) x.exponent = .gt

/-- The multiple of `10 ^ place` that reads back as `x`, the nearer one if two do. -/
def roundedAt? (x : Binary) (place : Int) : Option Decimal :=
  let (below, above) := x.neighbours place
  match x.readsBack below, x.readsBack above with
  | true, true => some (if x.nearerBelow below then below else above)
  | true, false => some below
  | false, true => some above
  | false, false => none

/-- The value itself. A power of two divides a power of ten, so it has a decimal form. -/
def exact (x : Binary) : Decimal :=
  if 0 ≤ x.exponent then ⟨x.numerator, 0⟩
  else ⟨x.significand * Nat.pow 5 (-x.exponent).toNat, x.exponent⟩

/-- The shortest decimal that reads back as `x`. Seventeen digits are enough for any double. -/
def shortest (x : Binary) : Decimal :=
  let candidates := (List.range 17).findSome? fun (n : Nat) => x.roundedAt? (x.leadingPlace - (n + 1))
  (candidates.getD x.exact).normalize

end Binary

/-- A number of a description as text: always positional, with no point for whole numbers. Neither
zero nor what is not a number has a sign. -/
def numberText (value : Float) : String :=
  if value.isNaN then "NaN"
  else if value == 0.0 then "0"
  else
    let magnitude :=
      if value.isInf then "inf" else (Binary.ofBits value.toBits).shortest.positional
    if value < 0.0 then "-" ++ magnitude else magnitude

end AssetPipeline
