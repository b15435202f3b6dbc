import StageArchive.Entity.NameTable
import StageArchive.Instruction.Decoder
/-!
# Payloads of groups, scenes and sets

The payload of a group or scene holds the offset of its name table, its class, the number of its
members, a stream and the table. One whose offset would not fit in a word is not made. The payload of a
set holds its class and a stream that refers to no media; the file of a set puts the payload's length in
front.
-/

namespace StageArchive

/-- The class of an entity and the number of its members: actors of a group, groups of a scene. -/
structure EntityHeader where
  classIndex : UInt32
  count : UInt32
  deriving DecidableEq, Repr

/-- The payload of a group or scene in its parts. -/
structure EntityPayload where
  header : EntityHeader
  nameTableOffset : UInt32
  streamOffset : Nat
  stream : Bytes
  names : List String
  deriving DecidableEq, Repr

namespace EntityPayload

/-- The length of the fields of fixed width. -/
def fixedLength : Nat := 8

/-- The offset of the name table, which follows the stream. -/
def tableOffset (header : EntityHeader) (stream : Bytes) : Nat :=
  fixedLength + (IndexCode.encode header.count).length + stream.length

/-- The payload with the given parts. -/
def encode (order : ByteOrder) (header : EntityHeader) (stream : Bytes) (names : List String) :
    Bytes :=
  order.encode (UInt32.ofNat (tableOffset header stream)) ++ order.encode header.classIndex ++
    IndexCode.encode header.count ++ stream ++ NameTable.encode names

/-- The payload with the given parts, unless the offset in it would not fit in a word. That is the
fault `tooLong` of those who put payloads together. -/
def build {ε : Type} (tooLong : ε) (order : ByteOrder) (header : EntityHeader) (stream : Bytes)
    (names : List String) : Except ε Bytes :=
  if tableOffset header stream < 2 ^ 32 then .ok (encode order header stream names)
  else .error tooLong

/-- Takes a payload apart. -/
def decode (order : ByteOrder) (bytes : Bytes) : Except StreamFault EntityPayload :=
  match order.word? bytes 0, order.word? bytes 4 with
  | some tableOffset, some classIndex =>
    if tableOffset.toNat < fixedLength ∨ bytes.length < tableOffset.toNat then
      .error (.badNameTableOffset tableOffset bytes.length)
    else
      let middle := (bytes.take tableOffset.toNat).drop fixedLength
      match IndexCode.decode middle with
      | .error _ => .error (.indexOverflow fixedLength)
      | .ok (count, length) => do
        let names ← NameTable.decode tableOffset.toNat (bytes.drop tableOffset.toNat)
        pure ⟨⟨classIndex, count⟩, tableOffset, fixedLength + length, middle.drop length, names⟩
  | _, _ => .error (.payloadTooShort bytes.length)

/-- The instructions of the stream. -/
def instructions (payload : EntityPayload) (order : ByteOrder) :
    Except StreamFault (List Instruction) :=
  decodeStream order payload.stream

end EntityPayload

/-- The payload of a set in its parts. -/
structure SetPayload where
  classIndex : UInt32
  stream : Bytes
  deriving DecidableEq, Repr

namespace SetPayload

/-- The length of the payload with a stream. -/
def length (stream : Bytes) : Nat :=
  4 + stream.length

/-- The file of a set with the given parts. -/
def encodeFile (order : ByteOrder) (classIndex : UInt32) (stream : Bytes) : Bytes :=
  order.encode (UInt32.ofNat (length stream)) ++ order.encode classIndex ++ stream

/-- The payload in the file of a set. -/
def ofFile (order : ByteOrder) (bytes : Bytes) : Except StreamFault Bytes :=
  match order.word? bytes 0 with
  | none => .error (.payloadTooShort bytes.length)
  | some declared =>
    if declared.toNat = bytes.length - 4 then .ok (bytes.drop 4)
    else .error (.badSetPrefix declared (bytes.length - 4))

/-- Takes a payload apart. -/
def decode (order : ByteOrder) (bytes : Bytes) : Except StreamFault SetPayload :=
  match order.word? bytes 0 with
  | none => .error (.payloadTooShort bytes.length)
  | some classIndex => .ok ⟨classIndex, bytes.drop 4⟩

/-- The instructions of the stream, none of which may refer to media. -/
def instructions (payload : SetPayload) (order : ByteOrder) :
    Except StreamFault (List Instruction) := do
  let instructions ← decodeStream order payload.stream
  match instructions.find? (·.opcode = .copyMediaRef) with
  | none => pure instructions
  | some instruction => throw (.assetInSet instruction.offset)

end SetPayload

end StageArchive
