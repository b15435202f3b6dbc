import StageArchive.ByteOrder
/-!
# Index operands

An index is written in base 128, most significant digit first and without leading zeros, one digit
a byte; zero takes no bytes at all. Digits are below 0x80 and opcodes are not, so an index ends
where the next opcode begins and needs no length. A reader takes any number of leading zeros.
-/

namespace StageArchive.IndexCode

/-- The bytes that are not index digits. -/
def isOpcodeByte (byte : UInt8) : Bool :=
  0x80 ≤ byte

/-- The five base-128 digits of a word, the most significant first. -/
def digits (value : UInt32) : Bytes :=
  [(value >>> 28).toUInt8 &&& 0x7f, (value >>> 21).toUInt8 &&& 0x7f,
    (value >>> 14).toUInt8 &&& 0x7f, (value >>> 7).toUInt8 &&& 0x7f, value.toUInt8 &&& 0x7f]

/-- The encoding of an index. -/
def encode (value : UInt32) : Bytes :=
  (digits value).dropWhile (· == 0)

/-- The number of bytes an index takes: one for every seven of its bits. -/
def length (value : UInt32) : Nat :=
  if value = 0 then 0 else value.toNat.log2 / 7 + 1

/-- Continues an index of which `consumed` bytes gave `value`. -/
def decodeFrom (value consumed : Nat) : Bytes → Except Nat (UInt32 × Nat)
  | [] => .ok (UInt32.ofNat value, consumed)
  | byte :: rest =>
    if isOpcodeByte byte then .ok (UInt32.ofNat value, consumed)
    else if value * 128 + byte.toNat < 2 ^ 32 then
      decodeFrom (value * 128 + byte.toNat) (consumed + 1) rest
    else .error consumed

/-- The index at the front of some bytes and its length. An index that does not fit in 32 bits gives
the offset of the byte with which it grows too great. -/
def decode (bytes : Bytes) : Except Nat (UInt32 × Nat) :=
  decodeFrom 0 0 bytes

end StageArchive.IndexCode
