import StageArchive.Asset
import StageArchive.Instruction.Decoder
/-!
# Writing an entity stream

An encoder appends instructions to a stream. It keeps the same registers as a decoder and sets one
only when its value changes. Media are referred to by name; each name gets a number in order of its
first mention, and the names go beside the stream.
-/

namespace StageArchive

/-- A stream being written. -/
structure Encoder where
  order : ByteOrder
  bytes : Bytes
  registers : Registers
  names : NameIndex
  deriving DecidableEq

/-- A finished stream, with the names that its asset operands stand for. -/
structure EncodedStream where
  bytes : Bytes
  names : List String
  deriving DecidableEq, Repr

/-- One call of an encoder. -/
inductive EncoderCall where
  | plain (opcode : Opcode)
  | symbol (opcode : Opcode) (index : UInt32)
  | flags (value : UInt32)
  | setOffset (property : UInt32)
  | setLength (length : UInt32)
  | property (property : UInt32) (value : Bytes)
  | mediaRef (property : UInt32) (reference : AssetRef)
  deriving DecidableEq, Repr

/-- Why a call is refused: its opcode takes other operands, or its value has more bytes than the
length register can say. -/
inductive EncoderMisuse where
  | takesOperands (opcode : Opcode)
  | takesNoSymbol (opcode : Opcode)
  | valueTooLong
  deriving DecidableEq, Repr

/-- The wording of a misuse. -/
def EncoderMisuse.message : EncoderMisuse → String
  | .takesOperands opcode => s!"{opcode.label} takes operands, use a typed writer"
  | .takesNoSymbol opcode => s!"{opcode.label} does not take a symbol operand"
  | .valueTooLong => "property value exceeds 4 GiB"

namespace Encoder

/-- An empty stream. -/
def start (order : ByteOrder) : Encoder :=
  ⟨order, [], .blank, .empty⟩

/-- Appends an opcode and the bytes of its operand. -/
def emit (encoder : Encoder) (opcode : Opcode) (operand : Bytes) : Encoder :=
  { encoder with bytes := encoder.bytes ++ opcode.toByte :: operand }

/-- Appends an opcode with an index operand. -/
def symbol (encoder : Encoder) (opcode : Opcode) (index : UInt32) : Encoder :=
  encoder.emit opcode (IndexCode.encode index)

/-- Appends the flags of an entity. -/
def flags (encoder : Encoder) (value : UInt32) : Encoder :=
  encoder.emit .flags (encoder.order.encode value)

/-- Points the offset register at a property. -/
def setOffset (encoder : Encoder) (property : UInt32) : Encoder :=
  if encoder.registers.offset = some property then encoder
  else
    { encoder.symbol .setOffset property with
      registers := { encoder.registers with offset := some property } }

/-- Puts a number of bytes in the length register. -/
def setLength (encoder : Encoder) (length : UInt32) : Encoder :=
  if encoder.registers.length = some length then encoder
  else
    { encoder.symbol .setLength length with
      registers := { encoder.registers with length := some length } }

/-- Gives a property its bytes. -/
def property (encoder : Encoder) (property : UInt32) (value : Bytes) :
    Except EncoderMisuse Encoder :=
  if value.length < 2 ^ 32 then
    .ok (((encoder.setOffset property).setLength (UInt32.ofNat value.length)).emit .copy value)
  else .error .valueTooLong

/-- Gives a property an asset, and says which operand was written. -/
def mediaRef (encoder : Encoder) (property : UInt32) (reference : AssetRef) : Encoder × UInt32 :=
  let encoder := encoder.setOffset property
  match reference with
  | .pending name =>
    let (names, number, _) := encoder.names.insert name
    ({ encoder with names := names }.symbol .copyMediaRef number, number)
  | .resolved number => (encoder.symbol .copyMediaRef number, number)

/-- Ends the stream. -/
def finish (encoder : Encoder) : EncodedStream :=
  ⟨(encoder.emit .finish []).bytes, encoder.names.names⟩

/-- Makes one call; the answer is the operand that a reference to media was given. -/
def call (encoder : Encoder) : EncoderCall → Except EncoderMisuse (Encoder × Option UInt32)
  | .plain opcode =>
    match opcode.operand? with
    | none => .ok (encoder.emit opcode [], none)
    | some _ => .error (.takesOperands opcode)
  | .symbol opcode index =>
    match opcode.operand? with
    | some (.symbol _) => .ok (encoder.symbol opcode index, none)
    | _ => .error (.takesNoSymbol opcode)
  | .flags value => .ok (encoder.flags value, none)
  | .setOffset property => .ok (encoder.setOffset property, none)
  | .setLength length => .ok (encoder.setLength length, none)
  | .property property value => (encoder.property property value).map fun encoder => (encoder, none)
  | .mediaRef property reference =>
    let (encoder, operand) := encoder.mediaRef property reference
    .ok (encoder, some operand)

end Encoder

end StageArchive
