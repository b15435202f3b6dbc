import StageArchive.Instruction.Opcode
import StageArchive.Text.Quoted
/-!
# Faults of streams and payloads

What can be wrong with the bytes of an entity. Offsets count from the front of the stream, or of the
payload for faults of its header and names.
-/

namespace StageArchive

/-- A reason to refuse a stream or a payload. -/
inductive StreamFault where
  | unknownOpcode (byte : UInt8) (offset : Nat)
  | expectedOpcode (byte : UInt8) (offset : Nat)
  | indexOverflow (offset : Nat)
  | truncated (opcode : Opcode) (offset : Nat)
  | missingLength (offset : Nat)
  | missingTerminator
  | assetInSet (offset : Nat)
  | unterminatedName (offset : Nat)
  | invalidName (offset : Nat)
  | payloadTooShort (length : Nat)
  | badNameTableOffset (offset : UInt32) (length : Nat)
  | trailingBytes (offset count : Nat)
  | badSetPrefix (declared : UInt32) (actual : Nat)
  deriving DecidableEq, Repr

/-- A byte as two hexadecimal digits after a zero and an x. -/
def Text.hexByte (byte : UInt8) : String :=
  "0x" ++ String.ofList (Text.hexPadded 2 byte.toNat)

/-- The wording of a fault. -/
def StreamFault.message : StreamFault → String
  | .unknownOpcode byte offset => s!"unknown opcode {Text.hexByte byte} at offset {offset}"
  | .expectedOpcode byte offset =>
    s!"expected an opcode at offset {offset}, found index byte {Text.hexByte byte}"
  | .indexOverflow offset => s!"index at offset {offset} does not fit in 32 bits"
  | .truncated opcode offset => s!"{opcode.label} at offset {offset} is truncated"
  | .missingLength offset => s!"Copy at offset {offset} has no preceding SetLength"
  | .missingTerminator => "stream ends without End"
  | .assetInSet offset => s!"asset reference at offset {offset} in a set stream"
  | .unterminatedName offset => s!"asset name at offset {offset} is not NUL-terminated"
  | .invalidName offset => s!"asset name at offset {offset} is not valid UTF-8"
  | .payloadTooShort length => s!"payload of {length} bytes is shorter than its header"
  | .badNameTableOffset offset length =>
    s!"name table offset {offset} lies outside the {length}-byte payload"
  | .trailingBytes offset count => s!"{count} unexpected bytes after End at offset {offset}"
  | .badSetPrefix declared actual =>
    s!"set size prefix declares {declared} bytes but {actual} follow"

end StageArchive
