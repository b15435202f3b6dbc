import StageArchive.Binary.Format
/-!
# Scalars and their run-wide encoding

Every scalar of one compilation run is stored the same way: as the pattern of a 32-bit float, or as
a signed fixed-point word with 16 or 12 fraction bits. A fixed-point word is the single-precision
product of the scalar and the scale, truncated toward zero and held at the ends of the 32-bit
range; what is not a number becomes zero.
-/

namespace StageArchive

/-- A 32-bit float, kept as its bit pattern. Two scalars are equal when their patterns are. -/
structure Scalar where
  bits : UInt32
  deriving DecidableEq, Repr, Inhabited

namespace Scalar

/-- What the pattern denotes. -/
def denote (scalar : Scalar) : Binary.Denotation :=
  Binary.single.denote scalar.bits.toNat

/-- The scalar with a pattern given as a natural number. -/
def ofPattern (bits : Nat) : Scalar :=
  ⟨UInt32.ofNat bits⟩

/-- The scalar nearest to an integer. -/
def ofInt (value : Int) : Scalar :=
  ofPattern (Binary.single.round (value < 0) value.natAbs 1)

/-- A scalar times a power of two, rounded to a scalar. -/
def scale (scalar : Scalar) (shift : Int) : Scalar :=
  ofPattern (Binary.single.scale scalar.bits.toNat shift)

end Scalar

/-- An integer held at the ends of the signed 32-bit range. -/
def clampWord (value : Int) : Int :=
  max (-(2 ^ 31)) (min value (2 ^ 31 - 1))

/-- What a pattern denotes, truncated toward zero and held at the ends of the signed 32-bit range;
what is not a number becomes zero. -/
def Binary.Denotation.truncate : Binary.Denotation → Int
  | .finite negative mantissa exponent =>
    let magnitude : Int := mantissa * 2 ^ exponent.toNat / 2 ^ (-exponent).toNat
    clampWord (if negative then -magnitude else magnitude)
  | .infinite negative => if negative then -(2 ^ 31) else 2 ^ 31 - 1
  | .notANumber => 0

/-- How scalars are stored in property values. -/
inductive ScalarEncoding where
  /-- The bit pattern of the float. -/
  | float
  /-- Signed fixed point with 16 fraction bits. -/
  | fixed16
  /-- Signed fixed point with 12 fraction bits. -/
  | fixed20
  deriving DecidableEq, Repr, Inhabited

namespace ScalarEncoding

/-- The encoding with the given name; a fixed-point encoding has a second, numeric name. -/
def ofName? : String → Option ScalarEncoding
  | "float" => some .float
  | "fixed16" | "16.16" => some .fixed16
  | "fixed20" | "20.12" => some .fixed20
  | _ => none

/-- The first name of an encoding. -/
def name : ScalarEncoding → String
  | .float => "float"
  | .fixed16 => "fixed16"
  | .fixed20 => "fixed20"

/-- The number of fraction bits of a fixed-point encoding. -/
def fractionBits? : ScalarEncoding → Option Nat
  | .float => none
  | .fixed16 => some 16
  | .fixed20 => some 12

/-- The word that stores a scalar. -/
def encode (encoding : ScalarEncoding) (scalar : Scalar) : UInt32 :=
  match encoding.fractionBits? with
  | none => scalar.bits
  | some shift => (Int32.ofInt (scalar.scale shift).denote.truncate).toUInt32

/-- The scalar that a word stores: for fixed point the word as a float, divided by the scale. -/
def decode (encoding : ScalarEncoding) (word : UInt32) : Scalar :=
  match encoding.fractionBits? with
  | none => ⟨word⟩
  | some shift => (Scalar.ofInt word.toInt32.toInt).scale (-(shift : Int))

end ScalarEncoding

end StageArchive
