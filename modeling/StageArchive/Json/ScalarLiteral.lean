import StageArchive.Binary.Shortest
import StageArchive.Json.Value
/-!
# Scalars as literals

A scalar is written with the fewest digits that read back as it, always with a point or an exponent.
Up to thirteen digits before the point and down to five zeros after it the digits stand in place;
beyond that they follow the first digit and an exponent scales them.
-/

namespace StageArchive.Json

/-- The most digits before the point. -/
def mostWholeDigits : Int := 13

/-- The most zeros between the point and the first digit. -/
def mostLeadingZeros : Int := 5

/-- The literal of a positive decimal: digits, and the number of them that stand before the point,
which may be negative. -/
def decimalLiteral (negative : Bool) (digits : List Digit) (point : Int) : Number :=
  if digits.length ≤ point && point ≤ mostWholeDigits then
    ⟨negative, digits ++ List.replicate (point.toNat - digits.length) 0, some [0], none⟩
  else if 0 < point && point ≤ mostWholeDigits then
    ⟨negative, digits.take point.toNat, some (digits.drop point.toNat), none⟩
  else if point ≤ 0 && -mostLeadingZeros ≤ point then
    ⟨negative, [0], some (List.replicate (-point).toNat 0 ++ digits), none⟩
  else
    let fraction := digits.drop 1
    ⟨negative, digits.take 1, if fraction.isEmpty then none else some fraction,
      some (point - 1 < 0, digitsOf (point - 1).natAbs)⟩

/-- A scalar; null for one without a literal. -/
def ofScalar (scalar : Scalar) : Json :=
  match scalar.denote with
  | .finite negative 0 _ => .number ⟨negative, [0], some [0], none⟩
  | .finite negative mantissa exponent =>
    let (value, power) := Binary.single.shortest mantissa exponent
    let digits := digitsOf value
    .number (decimalLiteral negative digits (digits.length + power))
  | .infinite _ | .notANumber => .null

end StageArchive.Json
