import StageArchive.Arithmetic
/-!
# Byte order of multi-byte fields

A container declares its byte order once, in the sub-type of its root form. Every size, header
field, fixed-width operand and property value follows that declaration. This module holds the two
orders, the encoding of a 32-bit word and the reading of a word at an offset.
-/

namespace StageArchive

/-- A file, or a part of one. -/
abbrev Bytes := List UInt8

/-- The order in which the bytes of a word are stored. -/
inductive ByteOrder where
  | big
  | little
  deriving DecidableEq, Repr, Inhabited

namespace ByteOrder

/-- The order with the given name; each order has a long and a short name. -/
def ofName? : String → Option ByteOrder
  | "big" | "be" => some .big
  | "little" | "le" => some .little
  | _ => none

/-- The long name of an order. -/
def name : ByteOrder → String
  | .big => "big"
  | .little => "little"

/-- The opposite order. -/
def flip : ByteOrder → ByteOrder
  | .big => .little
  | .little => .big

/-- The bytes of a word, most significant first. -/
def mostSignificantFirst (word : UInt32) : Bytes :=
  [(word >>> 24).toUInt8, (word >>> 16).toUInt8, (word >>> 8).toUInt8, word.toUInt8]

/-- The word whose bytes are given from the most significant down. -/
def assemble (b₃ b₂ b₁ b₀ : UInt8) : UInt32 :=
  (b₃.toUInt32 <<< 24) ||| (b₂.toUInt32 <<< 16) ||| (b₁.toUInt32 <<< 8) ||| b₀.toUInt32

/-- The four bytes of a word in this order. -/
def encode (order : ByteOrder) (word : UInt32) : Bytes :=
  match order with
  | .big => mostSignificantFirst word
  | .little => (mostSignificantFirst word).reverse

/-- The word stored as four bytes in this order. -/
def decode (order : ByteOrder) (first second third fourth : UInt8) : UInt32 :=
  match order with
  | .big => assemble first second third fourth
  | .little => assemble fourth third second first

/-- The word stored at an offset, or nothing when fewer than four bytes follow it. -/
def word? (order : ByteOrder) (bytes : Bytes) (offset : Nat) : Option UInt32 :=
  match bytes.drop offset with
  | first :: second :: third :: fourth :: _ => some (order.decode first second third fourth)
  | _ => none

/-- A word takes four bytes. -/
@[simp]
theorem length_encode (order : ByteOrder) (word : UInt32) : (order.encode word).length = 4 := by
  cases order <;> rfl

end ByteOrder

end StageArchive
