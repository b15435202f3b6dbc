import StageArchive.Arithmetic
/-!
# Binary floating-point formats

A bit pattern of a binary interchange format denotes a dyadic rational, an infinity or no number.
`Format.denote` says which, and `Format.round` goes back from an exact quotient of natural numbers
to the nearest pattern, a tie going to the even one. All arithmetic is on natural numbers and
integers, so nothing depends on the machine's own floating point.
-/

namespace StageArchive.Binary

/-- A binary interchange format: how many bits the fraction and the exponent field have. -/
structure Format where
  fractionBits : Nat
  exponentBits : Nat
  deriving DecidableEq, Repr

/-- The 32-bit format. -/
def single : Format := ⟨23, 8⟩

/-- The 64-bit format. -/
def double : Format := ⟨52, 11⟩

/-- What a bit pattern denotes. A finite value is `± mantissa * 2 ^ exponent`; zero keeps its
sign. -/
inductive Denotation where
  | finite (negative : Bool) (mantissa : Nat) (exponent : Int)
  | infinite (negative : Bool)
  | notANumber
  deriving DecidableEq, Repr

/-- The nearest integer to a quotient, a tie going to the even neighbour. -/
def roundQuotient (numerator denominator : Nat) : Nat :=
  let quotient := numerator / denominator
  let remainder := numerator % denominator
  if 2 * remainder < denominator then quotient
  else if denominator < 2 * remainder then quotient + 1
  else quotient + quotient % 2

/-- The exponent of the greatest power of two that a positive quotient reaches. -/
def floorLog2 (numerator denominator : Nat) : Int :=
  let estimate : Int := (numerator.log2 : Int) - (denominator.log2 : Int)
  if numerator * 2 ^ (-estimate).toNat < denominator * 2 ^ estimate.toNat then estimate - 1
  else estimate

namespace Format

/-- The weight of the sign bit. -/
def signWeight (format : Format) : Nat :=
  2 ^ (format.fractionBits + format.exponentBits)

/-- The pattern of positive infinity. -/
def infinity (format : Format) : Nat :=
  (2 ^ format.exponentBits - 1) * 2 ^ format.fractionBits

/-- The exponent of the least positive value. -/
def leastExponent (format : Format) : Int :=
  2 - 2 ^ (format.exponentBits - 1) - format.fractionBits

/-- What a bit pattern denotes. -/
def denote (format : Format) (bits : Nat) : Denotation :=
  let negative := bits / format.signWeight % 2 == 1
  let magnitude := bits % format.signWeight
  let field := magnitude / 2 ^ format.fractionBits
  let fraction := magnitude % 2 ^ format.fractionBits
  if magnitude == format.infinity then .infinite negative
  else if format.infinity < magnitude then .notANumber
  else if field == 0 then .finite negative fraction format.leastExponent
  else .finite negative (fraction + 2 ^ format.fractionBits)
    (format.leastExponent + ((field : Int) - 1))

/-- The pattern nearest to a quotient of natural numbers; what is too great becomes infinity.

The pattern of `mantissa * 2 ^ exponent` is `mantissa` plus the distance of `exponent` from the
least one times the weight of the exponent field: the leading bit of a full mantissa carries into
that field, and a mantissa that rounds up past its width carries once more. -/
def roundMagnitude (format : Format) (numerator denominator : Nat) : Nat :=
  if numerator == 0 then 0
  else
    let exponent :=
      max format.leastExponent (floorLog2 numerator denominator - format.fractionBits)
    let mantissa :=
      roundQuotient (numerator * 2 ^ (-exponent).toNat) (denominator * 2 ^ exponent.toNat)
    let bits := (exponent - format.leastExponent).toNat * 2 ^ format.fractionBits + mantissa
    min bits format.infinity

/-- The pattern nearest to a signed quotient. -/
def round (format : Format) (negative : Bool) (numerator denominator : Nat) : Nat :=
  (if negative then format.signWeight else 0) + format.roundMagnitude numerator denominator

/-- The pattern nearest to `± mantissa * 2 ^ exponent`. -/
def roundScaled (format : Format) (negative : Bool) (mantissa : Nat) (exponent : Int) : Nat :=
  format.round negative (mantissa * 2 ^ exponent.toNat) (2 ^ (-exponent).toNat)

/-- One pattern that denotes no number. -/
def quietNotANumber (format : Format) : Nat :=
  format.infinity + 2 ^ (format.fractionBits - 1)

/-- The pattern of this format nearest to what a pattern of another format denotes. -/
def convert (target source : Format) (bits : Nat) : Nat :=
  match source.denote bits with
  | .finite negative mantissa exponent => target.roundScaled negative mantissa exponent
  | .infinite negative => (if negative then target.signWeight else 0) + target.infinity
  | .notANumber => target.quietNotANumber

/-- A pattern times a power of two, rounded as a product of the format is. -/
def scale (format : Format) (bits : Nat) (shift : Int) : Nat :=
  match format.denote bits with
  | .finite negative mantissa exponent => format.roundScaled negative mantissa (exponent + shift)
  | .infinite negative => (if negative then format.signWeight else 0) + format.infinity
  | .notANumber => format.quietNotANumber

end Format

end StageArchive.Binary
