import StageArchive.Chunk.Walk
import StageArchive.Entity.Payload
import StageArchive.Media
import StageArchive.Palette
import StageArchive.Symbol.Table
/-!
# Listings of containers and entities

A listing shows every chunk with its offset and size, the fields of headers, tables of contents and
media, and the instructions of every entity. With a symbol table at hand, indices are explained by
names. The first fault in file order leaves no listing.
-/

namespace StageArchive

/-- A reason why there is no listing. -/
inductive ListingFault where
  | container (fault : ChunkFault)
  | stream (fault : StreamFault)
  | notAContainer (tag : Tag)
  | notAnEntity (tag : Tag)
  deriving DecidableEq, Repr

/-- The wording of a fault. -/
def ListingFault.message : ListingFault → String
  | .container fault => fault.message
  | .stream fault => fault.message
  | .notAContainer tag => s!"not a playprint container (starts with '{tag.label}')"
  | .notAnEntity tag => s!"'{tag.label}' is not an entity chunk kind"

/-- How listings are shown: with which colours, and with which names. -/
structure Listing where
  palette : Palette
  symbols : Option SymbolTable

namespace Listing

/-- How many bytes of a value are shown. -/
def shownBytes : Nat := 16

/-- The lines of a listing, or why there is none. -/
abbrev Lines := Except ListingFault (List String)

/-- The blank before a line. -/
def indent (depth : Nat) : String :=
  String.ofList (List.replicate (2 * depth) ' ')

/-- A step of reading a container, from a source. -/
def reading {α : Type} (source : Source) (step : Reading α) : Except ListingFault α :=
  (step.run.run source).1.mapError .container

/-- A remark at the end of a line. -/
def remark (listing : Listing) (text : String) : String :=
  "  " ++ listing.palette.dim ++ "; " ++ text ++ listing.palette.reset

/-- The name of an index, as a remark. -/
def symbolRemark (listing : Listing) (space : Namespace) (index : UInt32) : String :=
  match listing.symbols.bind (·.name? space index) with
  | none => ""
  | some name => listing.remark name

/-- The tags of a chunk, its offset and its size. -/
def chunkLine (listing : Listing) (depth : Nat) (chunk : Chunk) : String :=
  let label :=
    match chunk.subtype with
    | none => chunk.tag.label
    | some subtype => chunk.tag.label ++ " " ++ subtype.label
  indent depth ++ listing.palette.tag label ++ " " ++
    listing.palette.note s!"@{chunk.offset} size={chunk.size}"

/-- The first bytes of a value, and their number when there are more. -/
def bytesText (bytes : Bytes) : String :=
  let shown := (bytes.take shownBytes).flatMap fun byte => ' ' :: Text.hexPadded 2 byte.toNat
  String.ofList shown ++ if shownBytes < bytes.length then s!" .. ({bytes.length} bytes)" else ""

/-- An operand and the remark on it. Numbers of media are an entity's own when it has names. -/
def operandText (listing : Listing) (names : List String) (operand : Operand) : String × String :=
  match operand.kind, operand.value with
  | .symbol space, .index value => (s!" {value}", listing.symbolRemark space value)
  | .asset, .index value =>
    if names.isEmpty then (s!" #{value}", "")
    else
      match names[value.toNat]? with
      | none => (s!" ${value}", "")
      | some name => (s!" ${value}", listing.remark (Text.quote name))
  | _, .index value => (s!" {value}", "")
  | _, .word value => (" 0x" ++ String.ofList (Text.hexPadded 8 value.toNat), "")
  | _, .bytes value => (bytesText value, "")

/-- An instruction at its offset. -/
def instructionLine (listing : Listing) (depth : Nat) (names : List String)
    (instruction : Instruction) : String :=
  let offset := String.ofList ((toString instruction.offset).toList.leftpad 4 '0')
  let (operand, remark) :=
    (instruction.operand.map (listing.operandText names)).getD ("", "")
  indent depth ++ listing.palette.note offset ++ " " ++
    listing.palette.tag instruction.opcode.label ++ operand ++ remark

/-- The payload of a group or scene. -/
def entityLines (listing : Listing) (depth : Nat) (kind : Tag) (order : ByteOrder)
    (bytes : Bytes) : Lines := do
  let payload ← (EntityPayload.decode order bytes).mapError .stream
  let instructions ← (payload.instructions order).mapError .stream
  let space := if kind = .scene then Namespace.sceneClass else .groupClass
  let header := payload.header
  let first := indent depth ++ s!"class={header.classIndex} count={header.count}" ++
    listing.symbolRemark space header.classIndex
  let names := payload.names.zipIdx.map fun (name, number) =>
    indent depth ++ s!"${number} = " ++ listing.palette.name (Text.quote name)
  pure (first :: instructions.map (listing.instructionLine depth payload.names) ++ names)

/-- The payload of a set. -/
def setLines (listing : Listing) (depth : Nat) (order : ByteOrder) (bytes : Bytes) : Lines := do
  let payload ← (SetPayload.decode order bytes).mapError .stream
  let instructions ← (payload.instructions order).mapError .stream
  let first := indent depth ++ s!"class={payload.classIndex}" ++
    listing.symbolRemark .setClass payload.classIndex
  pure (first :: instructions.map (listing.instructionLine depth []))

/-- The header of a container. -/
def headerLines (listing : Listing) (depth : Nat) (order : ByteOrder) (bytes : Bytes) : Lines := do
  let header ← (FileHeader.decode order bytes).mapError .container
  let expected := FileHeader.currentVersion
  let note := if header.isCurrent then "" else listing.remark s!"unsupported, expected {expected}"
  pure [indent depth ++ s!"version={header.version} timestamp={header.timestamp}" ++ note]

/-- A table of contents. -/
def contentsLines (depth : Nat) (entries : List ContentsEntry) : List String :=
  entries.zipIdx.map fun (entry, slot) => indent depth ++ s!"[{slot}] @{entry.offset}"

/-- The fixed fields of a media list; a field that is missing is shown as zero. -/
def infoLine (listing : Listing) (depth : Nat) (order : ByteOrder) (bytes : Bytes) : String :=
  let flags := (order.word? bytes 0).getD 0
  let mediaType := (order.word? bytes 4).getD 0
  let count := (order.word? bytes 8).getD 0
  indent depth ++ s!"flags={flags} media_type={mediaType} count={count}" ++
    listing.symbolRemark .mediaClass mediaType

/-- The data of a reference: a path as a quoted name, or the number of its bytes. -/
def referenceText (listing : Listing) (data : Bytes) : String :=
  match (MediaReference.terminated? data).bind Text.ofUtf8? with
  | none => s!"<{data.length} bytes>"
  | some path => listing.palette.name (Text.quote path)

/-- A reference of a media list. -/
def referenceLines (listing : Listing) (depth : Nat) (order : ByteOrder) (bytes : Bytes) : Lines :=
  let data := bytes.drop MediaList.referenceLength
  match order.word? bytes 0, Tag.ofBytes? (bytes.drop 4), order.word? bytes 8 with
  | some flags, some kind, some size =>
    if size.toNat ≤ data.length then
      let shown := listing.referenceText (data.take size.toNat)
      pure [indent depth ++ s!"flags={flags} kind={kind.label} {shown}"]
    else throw (.container (.malformed .reference .shortReference))
  | _, _, _ => throw (.container (.malformed .reference .shortReference))

/-- The content of a chunk that is not a form. -/
def leafLines (listing : Listing) (depth : Nat) (source : Source) (chunk : Chunk) : Lines := do
  let order := source.order
  if chunk.tag = .header then
    listing.headerLines depth order (← reading source (.content chunk))
  else if chunk.tag = .contents then
    pure (contentsLines depth (← reading source (.contents chunk)))
  else if chunk.tag = .info then
    pure [listing.infoLine depth order (← reading source (.content chunk))]
  else if chunk.tag = .reference then
    listing.referenceLines depth order (← reading source (.content chunk))
  else if chunk.tag = .group || chunk.tag = .scene then
    listing.entityLines depth chunk.tag order (← reading source (.content chunk))
  else if chunk.tag = .set then
    listing.setLines depth order (← reading source (.content chunk))
  else pure []

/-- A chunk met on a walk. -/
def visitLines (listing : Listing) (source : Source) (visit : Visit) : Lines := do
  let first := listing.chunkLine visit.depth visit.chunk
  if visit.chunk.tag.isForm then pure [first]
  else
    let inside ← listing.leafLines (visit.depth + 1) source visit.chunk
    pure (first :: inside)

/-- A form and everything inside it. -/
def formLines (listing : Listing) (source : Source) (form : Chunk) : Lines := do
  let (visits, fault) := form.walk 1 source
  let lines ← visits.mapM (listing.visitLines source)
  match fault with
  | some fault => throw (.container fault)
  | none => pure (listing.chunkLine 0 form :: lines.flatten)

/-- Lines as text. -/
def ofLines (lines : List String) : String :=
  String.join (lines.map (· ++ "\n"))

/-- The listing of a container, or of a media list, which is in the given byte order. -/
def file (listing : Listing) (order : ByteOrder) (data : Bytes) : Except ListingFault String := do
  let first := (Tag.ofBytes? data).getD .blank
  let enter : Reading Chunk ←
    if first = .form then pure Reading.openRoot
    else if first = .list then pure Reading.header
    else throw (.notAContainer first)
  let start := Source.start order data
  let form ← reading start enter
  let source := (enter.run.run start).2
  pure (ofLines (← listing.formLines source form))

/-- The listing of an entity's file. -/
def entity (listing : Listing) (kind : Tag) (order : ByteOrder) (data : Bytes) :
    Except ListingFault String := do
  let body ←
    if kind = .group || kind = .scene then pure data
    else if kind = .set then (SetPayload.ofFile order data).mapError .stream
    else throw (.notAnEntity kind)
  let lines ←
    if kind = .set then listing.setLines 1 order body else listing.entityLines 1 kind order body
  pure (ofLines (s!"{listing.palette.tag kind.label} size={body.length}" :: lines))

end Listing

end StageArchive
