import StageArchive.Scalar
/-!
# Number literals

A JSON number is kept as the digits it is written with, because what it means depends on what is
read from it. An integer must be written as one. A scalar is read from an integer directly, and from
any other literal through the 64-bit format: as many leading digits as fit in 64 bits are kept, and
the result is scaled by a power of ten of that format, each step rounded.
-/

namespace StageArchive.Json

/-- A decimal digit. -/
abbrev Digit := Fin 10

/-- There are decimal digits, whatever else is known about the number ten. -/
instance (priority := high) tenNeZero : @NeZero Nat Zero.ofOfNat0 10 :=
  Nat.instNeZeroSucc

/-- A number as written: sign, digits before the point, digits after it, and the exponent with its
sign. -/
structure Number where
  negative : Bool
  whole : List Digit
  fraction : Option (List Digit)
  exponent : Option (Bool × List Digit)
  deriving DecidableEq, Repr

/-- The natural number that digits spell. -/
def ofDigits (digits : List Digit) : Nat :=
  digits.foldl (fun value digit => value * 10 + digit.val) 0

/-- The last `count` decimal digits of a number. -/
def digitsPadded : (count : Nat) → (value : Nat) → List Digit
  | 0, _ => []
  | count + 1, value => digitsPadded count (value / 10) ++ [Fin.ofNat 10 value]

/-- An upper bound for the number of decimal digits: a digit holds more than three bits. -/
def digitBound (value : Nat) : Nat :=
  value.log2 / 3 + 1

/-- The decimal digits of a number without leading zeros; zero has one digit. -/
def digitsOf (value : Nat) : List Digit :=
  match (digitsPadded (digitBound value) value).dropWhile (· == 0) with
  | [] => [0]
  | digits => digits

namespace Number

/-- The literal of a natural number. -/
def ofNat (value : Nat) : Number :=
  ⟨false, digitsOf value, none, none⟩

/-- The literal of an integer. -/
def ofInt (value : Int) : Number :=
  ⟨value < 0, digitsOf value.natAbs, none, none⟩

/-- The integer that the literal is: written without point and exponent, without a sign between 0
and `2 ^ 64 - 1`, with a sign between `-2 ^ 63` and -1. -/
def integer? (number : Number) : Option Int :=
  match number.fraction, number.exponent with
  | none, none =>
    let magnitude := ofDigits number.whole
    if number.negative then
      if 1 ≤ magnitude && magnitude ≤ 2 ^ 63 then some (-(magnitude : Int)) else none
    else if magnitude < 2 ^ 64 then some magnitude
    else none
  | _, _ => none

/-- Appends digits to a number while the result fits in 64 bits, and gives back what is left. -/
def absorb : (significand : Nat) → List Digit → Nat × List Digit
  | significand, [] => (significand, [])
  | significand, digit :: rest =>
    if significand * 10 + digit.val < 2 ^ 64 then absorb (significand * 10 + digit.val) rest
    else (significand, digit :: rest)

/-- The digits kept of a literal, as a number, and the power of ten that scales it. A digit before
the point that is not kept counts for the scale; one after it is dropped. -/
def scaled (number : Number) : Nat × Int :=
  let (significand, dropped) := absorb 0 number.whole
  let fraction := number.fraction.getD []
  let (significand, unread) := absorb significand fraction
  let written : Int :=
    match number.exponent with
    | none => 0
    | some (negative, digits) => if negative then -(ofDigits digits : Int) else ofDigits digits
  (significand, dropped.length - ((fraction.length : Int) - unread.length) + written)

end Number

/-- The power of ten nearest in the 64-bit format. -/
def powerOfTen (exponent : Nat) : Binary.Denotation :=
  Binary.double.denote (Binary.double.round false (10 ^ exponent) 1)

/-- The 64-bit pattern of a product of two positive patterns. -/
def product (left right : Binary.Denotation) : Nat :=
  match left, right with
  | .finite _ m e, .finite _ n f => Binary.double.roundScaled false (m * n) (e + f)
  | _, _ => Binary.double.infinity

/-- The 64-bit pattern of a quotient of two positive patterns. -/
def quotient (left right : Binary.Denotation) : Nat :=
  match left, right with
  | .finite _ m e, .finite _ n f =>
    Binary.double.round false (m * 2 ^ (e - f).toNat) (n * 2 ^ (f - e).toNat)
  | _, _ => 0

/-- The 64-bit pattern of `significand * 10 ^ exponent`. A power of ten beyond the format refuses
every significand but zero, and so does a product beyond it; an exponent below -308 divides in two
steps, and one below -616 leaves zero. -/
def scaleByTen? (significand : Nat) (exponent : Int) : Option Nat :=
  let start := Binary.double.round false significand 1
  let value := Binary.double.denote start
  if 0 ≤ exponent then
    if exponent ≤ 308 then
      let bits := product value (powerOfTen exponent.toNat)
      if bits < Binary.double.infinity then some bits else none
    else if significand = 0 then some 0
    else none
  else if -308 ≤ exponent then some (quotient value (powerOfTen (-exponent).toNat))
  else if -616 ≤ exponent then
    let reduced := Binary.double.denote (quotient value (powerOfTen 308))
    some (quotient reduced (powerOfTen (-exponent - 308).toNat))
  else some 0

/-- The scalar that a literal is read as; none when the literal is beyond the 64-bit format. -/
def Number.scalar? (number : Number) : Option Scalar :=
  match number.integer? with
  | some value => some (Scalar.ofInt value)
  | none => do
    let (significand, exponent) := number.scaled
    let bits ← scaleByTen? significand exponent
    let magnitude := Binary.single.convert Binary.double bits
    pure (Scalar.ofPattern ((if number.negative then Binary.single.signWeight else 0) + magnitude))

end StageArchive.Json
