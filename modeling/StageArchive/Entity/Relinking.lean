import StageArchive.Asset
import StageArchive.Entity.Payload
/-!
# Linking entities to a container's media

An entity refers to media by numbers of its own, which its name table explains. When the media of a
container are known each number is replaced by the container's number for the same name, and the
table is dropped. The stream is decoded as a whole before anything is replaced, and every other
byte stays as it is. A container's number may take more bytes than the one it replaces, so that a
payload can become too long.
-/

namespace StageArchive

/-- A reason why an entity cannot be linked. -/
inductive RelinkFault where
  | stream (fault : StreamFault)
  | localOutOfRange (number : UInt32) (count : Nat)
  | unresolvedAsset (name : String)
  | payloadTooLong
  deriving DecidableEq, Repr

namespace RelinkFault

/-- The wording of a fault. -/
def message : RelinkFault → String
  | .stream fault => fault.message
  | .localOutOfRange number count => s!"asset reference ${number} is out of range ({count} names)"
  | .unresolvedAsset name => s!"unresolved asset '{name}'"
  | .payloadTooLong => "payload exceeds 4 GiB"

/-- Whether the entity may be left out: only when a medium that it names is missing. -/
def isRecoverable : RelinkFault → Bool
  | .unresolvedAsset _ => true
  | .stream _ | .localOutOfRange _ _ | .payloadTooLong => false

end RelinkFault

/-- The bytes of an instruction with its asset operand replaced. -/
def Instruction.relink {m : Type → Type} [Monad m] (resolve : UInt32 → m UInt32)
    (instruction : Instruction) : m Bytes :=
  match instruction.operand with
  | some ⟨.asset, .index number, _⟩ => do
    let resolved ← resolve number
    pure (instruction.opcode.toByte :: IndexCode.encode resolved)
  | _ => pure instruction.bytes

/-- The bytes of instructions with every asset operand replaced, in order. -/
def relinkInstructions {m : Type → Type} [Monad m] (resolve : UInt32 → m UInt32) :
    List Instruction → m Bytes
  | [] => pure []
  | instruction :: rest => do
    let bytes ← instruction.relink resolve
    let others ← relinkInstructions resolve rest
    pure (bytes ++ others)

/-- A stream with every asset operand replaced. -/
def relinkStream {m : Type → Type} [Monad m] [MonadExcept RelinkFault m] (order : ByteOrder)
    (resolve : UInt32 → m UInt32) (stream : Bytes) : m Bytes :=
  match decodeStream order stream with
  | .error fault => throw (.stream fault)
  | .ok instructions => relinkInstructions resolve instructions

/-- The container's number for the medium that an entity has numbered. -/
def resolveLocal (names : List String) (assets : NameIndex) (number : UInt32) :
    Except RelinkFault UInt32 :=
  match names[number.toNat]? with
  | none => .error (.localOutOfRange number names.length)
  | some name =>
    match (AssetRef.pending name).resolve assets with
    | none => .error (.unresolvedAsset name)
    | some resolved => .ok resolved

/-- The payload of a group or scene, linked to the media of a container. -/
def relinkEntity (order : ByteOrder) (assets : NameIndex) (bytes : Bytes) :
    Except RelinkFault Bytes :=
  match EntityPayload.decode order bytes with
  | .error fault => .error (.stream fault)
  | .ok payload => do
    let stream ← relinkStream order (resolveLocal payload.names assets) payload.stream
    EntityPayload.build .payloadTooLong order payload.header stream []

end StageArchive
