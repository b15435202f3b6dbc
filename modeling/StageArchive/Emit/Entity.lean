import StageArchive.Config
import StageArchive.Emit.Value
import StageArchive.Entity.Payload
import StageArchive.FileSystem
import StageArchive.Instruction.Encoder
import StageArchive.Media
import StageArchive.Symbol.Scan
/-!
# Entities as files

Each scene, group, set and medium of a tree becomes a file. A group's stream holds a block for every
actor, with the set it is bound to, its properties and its roles. A scene's stream holds its own
properties and then names its groups. A set's stream holds its name and properties, none of which
may refer to media. A medium becomes a media list.
-/

namespace StageArchive

/-- A reason why an entity cannot be emitted. -/
inductive EmitFault where
  | symbol (fault : SymbolFault)
  | value (property : String) (fault : ValueFault)
  | mediaRefInSet (set property : String)
  | emptyAssetName (property : String)
  | notAnEntity (kind : NodeKind) (node : String)
  | badMediaKind (node kind : String)
  | badMediaPath (node : String) (path : Path)
  | encoding (misuse : EncoderMisuse)
  | payloadTooLong
  | setTooLong
  | unreadable (path : Path) (fault : FileFault)
  | container (fault : ChunkFault)
  deriving DecidableEq, Repr

namespace EmitFault

/-- The wording of a fault. -/
def message : EmitFault → String
  | .symbol fault => fault.message
  | .value property fault => s!"property '{property}': {fault.message}"
  | .mediaRefInSet set property =>
    s!"set '{set}' property '{property}' references media; sets cannot hold media references"
  | .emptyAssetName property => s!"property '{property}' references an asset with an empty name"
  | .notAnEntity kind node => s!"{kind.name} '{node}' is not an entity"
  | .badMediaKind node kind => s!"media '{node}' has invalid kind '{kind}'"
  | .badMediaPath node path => s!"media '{node}' path '{path.text}' is not a storable UTF-8 path"
  | .encoding misuse => misuse.message
  | .payloadTooLong => "payload exceeds 4 GiB"
  | .setTooLong => "set exceeds 4 GiB"
  | .unreadable path fault => s!"cannot read '{path.text}': {fault.message}"
  | .container fault => fault.message

/-- Whether the entity may be left out: only when a name that it mentions is missing. -/
def isRecoverable : EmitFault → Bool
  | .symbol _ | .value _ (.unknownVariant _ _) => true
  | _ => false

end EmitFault

/-- What an entity is emitted with. -/
structure Emitter where
  /-- The root of the tree, whose sets actors may be bound to. -/
  root : Node
  resolver : ClassResolver
  symbols : SymbolTable
  config : Config

namespace Emitter

/-- The index of a name. -/
def index (emitter : Emitter) (space : Namespace) (name : String) : Except EmitFault UInt32 :=
  (emitter.symbols.lookup space name).mapError .symbol

/-- The index of an instance name. -/
def instanceIndex (emitter : Emitter) (name : String) : Except EmitFault UInt32 :=
  emitter.index .instances name

/-- The class of a node and its index among the classes of the node's kind. -/
def classOf (emitter : Emitter) (node : Node) : Except EmitFault (ClassInfo × UInt32) :=
  match node.kind.classNamespace?, emitter.resolver node with
  | some space, some info => do
    let index ← emitter.index space info.name
    pure (info, index)
  | _, _ => throw (.symbol (.unclassified node.kind node.name))

/-- The index of the set that an actor is bound to. The name must be that of a set, since groups,
actors and roles have instance names too. -/
def setIndex (emitter : Emitter) (actor : Node) (name : String) : Except EmitFault UInt32 :=
  if (emitter.root.childrenOfKind .set).any (·.name == name) then emitter.instanceIndex name
  else throw (.symbol (.notASet actor.name name))

/-- Appends the flags of a node, unless there are none. -/
def appendFlags (encoder : Encoder) (node : Node) : Encoder :=
  if node.data.flags = 0 then encoder else encoder.flags node.data.flags

/-- Appends a property of a class. -/
def appendProperty (emitter : Emitter) (className : String) (encoder : Encoder)
    (property : Property) : Except EmitFault Encoder := do
  let qualified := qualifiedProperty className property.name
  let index ← emitter.index .property qualified
  let config := emitter.config
  match ← (property.value.encode config.byteOrder config.scalar).mapError (.value qualified) with
  | .bytes value => (encoder.property index value).mapError .encoding
  | .asset name =>
    if name.isEmpty then throw (.emptyAssetName qualified)
    else pure (encoder.mediaRef index (.pending name)).1

/-- Appends the properties of a node. -/
def appendProperties (emitter : Emitter) (className : String) (encoder : Encoder) (node : Node) :
    Except EmitFault Encoder :=
  node.data.properties.foldlM (emitter.appendProperty className) encoder

/-- Appends the opcode that opens a node, with its class, and its name. -/
def appendOpening (emitter : Emitter) (opcode : Opcode) (encoder : Encoder) (node : Node) :
    Except EmitFault (Encoder × ClassInfo) := do
  let (info, index) ← emitter.classOf node
  let name ← emitter.instanceIndex node.name
  pure ((encoder.symbol opcode index).symbol .name name, info)

/-- Appends a role. -/
def appendRole (emitter : Emitter) (encoder : Encoder) (role : Node) :
    Except EmitFault Encoder := do
  let (opened, info) ← emitter.appendOpening .role encoder role
  let filled ← emitter.appendProperties info.name (appendFlags opened role) role
  pure (filled.emit .endRole [])

/-- Appends the set that an actor is bound to, when it has one. -/
def appendBinding (emitter : Emitter) (encoder : Encoder) (actor : Node) :
    Except EmitFault Encoder :=
  match actor.data.attribute? "set" with
  | none => pure encoder
  | some name => do
    let index ← emitter.setIndex actor name
    pure (encoder.symbol .bindSet index)

/-- Appends an actor with its roles. -/
def appendActor (emitter : Emitter) (encoder : Encoder) (actor : Node) :
    Except EmitFault Encoder := do
  let (opened, info) ← emitter.appendOpening .actor encoder actor
  let bound ← emitter.appendBinding (appendFlags opened actor) actor
  let filled ← emitter.appendProperties info.name bound actor
  let played ← (actor.childrenOfKind .role).foldlM emitter.appendRole filled
  pure (played.emit .endActor [])

/-- Appends a group of a scene, by its name. -/
def appendGroup (emitter : Emitter) (encoder : Encoder) (group : Node) :
    Except EmitFault Encoder := do
  let (opened, _) ← emitter.appendOpening .beginGroup encoder group
  pure (opened.emit .endGroup [])

/-- An empty stream. -/
def startStream (emitter : Emitter) : Encoder :=
  Encoder.start emitter.config.byteOrder

/-- The payload with the members and the stream of an entity, unless an offset in it would not fit
in a word. -/
def payload (emitter : Emitter) (classIndex : UInt32) (members : List Node) (encoder : Encoder) :
    Except EmitFault Bytes :=
  EntityPayload.build .payloadTooLong emitter.config.byteOrder
    ⟨classIndex, UInt32.ofNat members.length⟩ encoder.finish.bytes encoder.finish.names

/-- The file with the stream of a set, unless its length would not fit in a word. -/
def setFile (emitter : Emitter) (classIndex : UInt32) (encoder : Encoder) :
    Except EmitFault Bytes :=
  let stream := encoder.finish.bytes
  if SetPayload.length stream < 2 ^ 32 then
    .ok (SetPayload.encodeFile emitter.config.byteOrder classIndex stream)
  else .error .setTooLong

/-- The file of a group. -/
def group (emitter : Emitter) (node : Node) : Except EmitFault Bytes := do
  let (_, classIndex) ← emitter.classOf node
  let actors := node.childrenOfKind .actor
  let encoder ← actors.foldlM emitter.appendActor emitter.startStream
  emitter.payload classIndex actors encoder

/-- The file of a scene. -/
def scene (emitter : Emitter) (node : Node) : Except EmitFault Bytes := do
  let (info, classIndex) ← emitter.classOf node
  let groups := node.childrenOfKind .group
  let opened := appendFlags emitter.startStream node
  let filled ← emitter.appendProperties info.name opened node
  let encoder ← groups.foldlM emitter.appendGroup filled
  emitter.payload classIndex groups encoder

/-- The file of a set. -/
def set (emitter : Emitter) (node : Node) : Except EmitFault Bytes := do
  let (info, classIndex) ← emitter.classOf node
  match node.data.properties.find? (·.value.medium?.isSome) with
  | some property => throw (.mediaRefInSet node.name property.name)
  | none =>
    let name ← emitter.instanceIndex node.name
    let opened := appendFlags (emitter.startStream.symbol .name name) node
    let encoder ← emitter.appendProperties info.name opened node
    emitter.setFile classIndex encoder

section Media

variable {m : Type → Type} [Monad m] [FileAccess m]

/-- The reference to one file of a medium. An embedded file is read. -/
def mediaReference (emitter : Emitter) (node : Node) (source : MediaSource) :
    ExceptT EmitFault m MediaReference := do
  let kind ←
    match Tag.ofName? source.kind with
    | some kind =>
      if source.kind.isEmpty then throw (.badMediaKind node.name source.kind) else pure kind
    | none => throw (.badMediaKind node.name source.kind)
  if source.embed then
    let path := emitter.config.resolveAsset source.path
    match ← (FileAccess.read path : m (Except FileFault Bytes)) with
    | .error fault => throw (.unreadable path fault)
    | .ok content => pure ⟨source.flags, kind, content⟩
  else if source.path.text.toList.contains '\x00' then
    throw (.badMediaPath node.name source.path)
  else pure (MediaReference.ofPath source.flags kind source.path.text)

/-- The file of a medium. -/
def media (emitter : Emitter) (node : Node) : ExceptT EmitFault m Bytes := do
  let (_, mediaType) ← (emitter.classOf node : Except EmitFault _)
  let references ← node.data.media.mapM (emitter.mediaReference node)
  let list : MediaList := ⟨node.data.flags, mediaType, references⟩
  (list.encode emitter.config.byteOrder).mapError EmitFault.container

/-- The file of an entity, according to its kind. -/
def emit (emitter : Emitter) (node : Node) : ExceptT EmitFault m Bytes :=
  match node.kind with
  | .group => liftExcept (emitter.group node)
  | .scene => liftExcept (emitter.scene node)
  | .set => liftExcept (emitter.set node)
  | .media => emitter.media node
  | kind => throw (.notAnEntity kind node.name)
where
  /-- An outcome that no file has part in. -/
  liftExcept (outcome : Except EmitFault Bytes) : ExceptT EmitFault m Bytes :=
    ExceptT.mk (pure outcome)

end Media

end Emitter

end StageArchive
