import StageArchive.Chunk.Sink
import StageArchive.Chunk.Source
import StageArchive.Text.Encoding
/-!
# Media lists

The files that a medium consists of are listed in a form of its own: a chunk with fixed fields and
a chunk for each reference. A reference holds a path that ends in a zero byte, or the bytes of a
file. A container takes such a list as it stands.
-/

namespace StageArchive

/-- One file of a medium. -/
structure MediaReference where
  flags : UInt32
  /-- The kind of file. -/
  kind : Tag
  data : Bytes
  deriving DecidableEq, Repr

namespace MediaReference

/-- A reference to a file by its path. -/
def ofPath (flags : UInt32) (kind : Tag) (path : String) : MediaReference :=
  ⟨flags, kind, Text.utf8 path ++ [0]⟩

/-- The bytes before a final zero byte, when there is one and no other. -/
def terminated? (data : Bytes) : Option Bytes :=
  if data.getLast? = some 0 && !data.dropLast.contains 0 then some data.dropLast else none

/-- The path that a reference holds, if it holds one. -/
def path? (reference : MediaReference) : Option String :=
  (terminated? reference.data).bind Text.ofUtf8?

end MediaReference

/-- The files of a medium. -/
structure MediaList where
  flags : UInt32
  /-- The number of the medium's class. -/
  mediaType : UInt32
  references : List MediaReference
  deriving DecidableEq, Repr

namespace MediaList

/-- The length of the fixed fields of a list. -/
def infoLength : Nat := 12

/-- The length of the fields of a reference before its data. -/
def referenceLength : Nat := 12

/-- Writes one reference. -/
def writeReference (reference : MediaReference) : Writing Unit := do
  if 2 ^ 32 ≤ reference.data.length then throw (.sizeOverflow reference.data.length)
  let mark ← Writing.openChunk .reference
  Writing.word reference.flags
  Writing.tag reference.kind
  Writing.word (UInt32.ofNat reference.data.length)
  Writing.bytes reference.data
  let _ ← Writing.close mark

/-- Writes a list at the position of a sink. -/
def write (media : MediaList) : Writing Unit := do
  if 2 ^ 32 ≤ media.references.length then throw (.sizeOverflow media.references.length)
  let list ← Writing.openForm .list .mediaList
  let info ← Writing.openChunk .info
  Writing.word media.flags
  Writing.word media.mediaType
  Writing.word (UInt32.ofNat media.references.length)
  let _ ← Writing.close info
  media.references.forM writeReference
  let _ ← Writing.close list

/-- A list as a file of its own. -/
def encode (media : MediaList) (order : ByteOrder) : Except ChunkFault Bytes :=
  ((do media.write; Writing.finish : Writing Bytes).run.run (Sink.start order)).1

/-- Enters the next chunk of a list, which must have the given tag. -/
def child (list : Chunk) (expected : Tag) : Reading Chunk := do
  let offset ← Reading.position
  match ← Reading.next? list with
  | none => throw (.malformed (list.subtype.getD list.tag) .missingChunks)
  | some chunk =>
    if chunk.tag = expected then return chunk
    else throw (.unexpectedTag expected chunk.tag offset)

/-- Reads one reference of a list. -/
def readReference (list : Chunk) : Reading MediaReference := do
  let chunk ← child list .reference
  if chunk.contentLength < referenceLength then throw (.malformed .reference .shortReference)
  let flags ← Reading.word
  let kind ← Reading.tag
  let size ← Reading.word
  let available := chunk.contentLength - referenceLength
  if available < size.toNat then throw (.lengthMismatch size.toNat available)
  let data ← Reading.bytes size.toNat
  Reading.ascend chunk
  return ⟨flags, kind, data⟩

/-- Reads a number of references of a list. -/
def readReferences (list : Chunk) : (count : Nat) → Reading (List MediaReference)
  | 0 => return []
  | count + 1 => do
    let reference ← readReference list
    return reference :: (← readReferences list count)

/-- Reads a list that has been entered. -/
def read (list : Chunk) : Reading MediaList := do
  Reading.seek list.content
  let info ← child list .info
  if info.contentLength < infoLength then throw (.malformed .info .shortInfo)
  let flags ← Reading.word
  let mediaType ← Reading.word
  let count ← Reading.word
  Reading.ascend info
  return ⟨flags, mediaType, ← readReferences list count.toNat⟩

/-- Reads a list that is a file of its own and spans the file. -/
def decode (order : ByteOrder) (data : Bytes) : Except ChunkFault MediaList :=
  ((do
    let list ← Reading.descendForm .list .mediaList
    if list.finish ≠ data.length then throw (.lengthMismatch list.finish data.length)
    read list : Reading MediaList).run.run (Source.start order data)).1

end MediaList

end StageArchive
