import StageArchive.Chunk.Layout
/-!
# Writing chunks

A sink is a file being written, with a position in it. A chunk is opened with a size of zero, and
its size is put in when it is closed and its length known; a table of contents is reserved with
zeros and filled in the same way, once the offsets of all chunks are known. Everything else is
written at the end.
-/

namespace StageArchive

/-- A chunk that is open. -/
structure ChunkMark where
  tag : Tag
  /-- The offset of the tag. -/
  offset : Nat
  deriving DecidableEq, Repr

/-- A table of contents that is reserved, with the entries it will have. -/
structure Reservation where
  /-- The offset of the body. -/
  body : Nat
  count : UInt32
  entries : List ContentsEntry
  deriving DecidableEq, Repr

/-- A file being written. The byte order of numbers holds until a root form declares another. -/
structure Sink where
  data : Bytes
  position : Nat
  order : ByteOrder
  reserved : Option Reservation
  deriving DecidableEq, Repr

/-- A step of writing, which may fail and changes the sink either way. -/
abbrev Writing (α : Type) := ExceptT ChunkFault (StateM Sink) α

namespace Sink

/-- An empty file. -/
def start (order : ByteOrder) : Sink :=
  ⟨[], 0, order, none⟩

/-- The sink after bytes are written at the position, over what is there. -/
def put (sink : Sink) (bytes : Bytes) : Sink :=
  { sink with
    data := sink.data.take sink.position ++ bytes ++ sink.data.drop (sink.position + bytes.length)
    position := sink.position + bytes.length }

end Sink

namespace Writing

/-- The current position. -/
def position : Writing Nat :=
  return (← get).position

/-- The current position as a word. -/
def offset : Writing UInt32 := do
  let position ← position
  if position < 2 ^ 32 then return UInt32.ofNat position
  else throw (.offsetOverflow position)

/-- Moves to an offset. -/
def seek (offset : Nat) : Writing Unit :=
  modify fun sink => { sink with position := offset }

/-- Writes bytes. -/
def bytes (bytes : Bytes) : Writing Unit :=
  modify (·.put bytes)

/-- Writes a tag. -/
def tag (tag : Tag) : Writing Unit :=
  bytes tag.bytes

/-- Writes a word. -/
def word (value : UInt32) : Writing Unit := do
  bytes ((← get).order.encode value)

/-- Writes a signed word. -/
def signedWord (value : Int32) : Writing Unit :=
  word value.toUInt32

/-- Opens a chunk. -/
def openChunk (name : Tag) : Writing ChunkMark := do
  let offset ← position
  tag name
  bytes [0, 0, 0, 0]
  return ⟨name, offset⟩

/-- Closes a chunk: makes the length of its body even and puts in its size. -/
def close (mark : ChunkMark) : Writing UInt32 := do
  if ((← position) - (mark.offset + Chunk.headerLength)) % 2 = 1 then bytes [0]
  let finish ← position
  let size := finish - (mark.offset + Chunk.headerLength)
  if 2 ^ 32 ≤ size then throw (.sizeOverflow size)
  seek (mark.offset + 4)
  word (UInt32.ofNat size)
  seek finish
  return UInt32.ofNat size

/-- Opens a form; one that declares a byte order changes the order of the file. -/
def openForm (name subtype : Tag) : Writing ChunkMark := do
  if let some order := subtype.order? then
    modify fun sink => { sink with order := order }
  let mark ← openChunk name
  tag subtype
  return mark

/-- Writes a whole chunk. -/
def chunk (name : Tag) (body : Bytes) : Writing UInt32 := do
  let mark ← openChunk name
  bytes body
  close mark

/-- Reserves a table of contents. -/
def reserveContents (count : UInt32) : Writing Unit := do
  if (← get).reserved.isSome then throw .contentsAlreadyReserved
  let mark ← openChunk .contents
  let body ← position
  bytes (List.replicate (contentsLength count) 0)
  let _ ← close mark
  modify fun sink => { sink with reserved := some ⟨body, count, []⟩ }

/-- Adds an entry to the table of contents. -/
def addEntry (entry : ContentsEntry) : Writing Unit := do
  match (← get).reserved with
  | none => throw .contentsNotReserved
  | some reservation =>
    if reservation.entries.length = reservation.count.toNat then
      throw (.contentsFull reservation.count)
    let reservation := { reservation with entries := reservation.entries ++ [entry] }
    modify fun sink => { sink with reserved := some reservation }

/-- Fills in the table of contents. A table with too few entries is given up. -/
def fillContents : Writing Unit := do
  match (← get).reserved with
  | none => throw .contentsNotReserved
  | some reservation =>
    modify fun sink => { sink with reserved := none }
    if reservation.entries.length ≠ reservation.count.toNat then
      throw (.contentsCountMismatch reservation.count reservation.entries.length)
    let resume ← position
    seek reservation.body
    word reservation.count
    reservation.entries.forM fun entry => do
      signedWord entry.label
      word entry.offset
    seek resume

/-- Ends the file; a table of contents that is still reserved prevents it. -/
def finish : Writing Bytes := do
  let sink ← get
  match sink.reserved with
  | none => return sink.data
  | some reservation =>
    throw (.contentsCountMismatch reservation.count reservation.entries.length)

end Writing

end StageArchive
