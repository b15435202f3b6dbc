import StageArchive.Chunk.Fault
/-!
# Chunks and tables of contents

A chunk is a tag, a size and a body; the size counts the body with the zero byte that makes its
length even. The body of a form begins with a second tag and goes on with chunks. A table of
contents holds a count and, for each entry, a label and the file offset of a chunk.
-/

namespace StageArchive

/-- Where a chunk lies in a file. -/
structure Chunk where
  tag : Tag
  /-- The second tag of a form. -/
  subtype : Option Tag
  /-- The offset of the tag. -/
  offset : Nat
  /-- The size field. -/
  size : UInt32
  deriving DecidableEq, Repr

namespace Chunk

/-- The number of bytes of a tag and a size. -/
def headerLength : Nat := 8

/-- The offset after the size field. -/
def body (chunk : Chunk) : Nat :=
  chunk.offset + headerLength

/-- The offset of the first chunk inside a form, or of the first byte of another chunk's body. -/
def content (chunk : Chunk) : Nat :=
  chunk.body + if chunk.subtype.isSome then 4 else 0

/-- The offset after the chunk. -/
def finish (chunk : Chunk) : Nat :=
  chunk.body + chunk.size.toNat

/-- The length of the content. A form that is too small for its second tag has none. -/
def contentLength? (chunk : Chunk) : Option Nat :=
  if chunk.content ≤ chunk.finish then some (chunk.finish - chunk.content) else none

/-- The length of the content, zero where there is none. -/
def contentLength (chunk : Chunk) : Nat :=
  chunk.finish - chunk.content

end Chunk

/-- An entry of a table of contents. -/
structure ContentsEntry where
  /-- Written as zero. -/
  label : Int32
  /-- The offset of a chunk's tag, or zero for a chunk that is absent. -/
  offset : UInt32
  deriving DecidableEq, Repr

/-- The number of bytes of a table of contents. -/
def contentsLength (count : UInt32) : Nat :=
  4 + count.toNat * 8

/-- The header of a container. -/
structure FileHeader where
  version : UInt32
  /-- When the container was assembled, in seconds since 1970. -/
  timestamp : UInt32
  deriving DecidableEq, Repr

namespace FileHeader

/-- The version that containers are written in. -/
def currentVersion : UInt32 := 1

/-- The header of a container assembled at a time. -/
def ofTimestamp (timestamp : UInt32) : FileHeader :=
  ⟨currentVersion, timestamp⟩

/-- Whether the version is the current one. -/
def isCurrent (header : FileHeader) : Bool :=
  header.version == currentVersion

/-- The body of the header chunk. -/
def encode (order : ByteOrder) (header : FileHeader) : Bytes :=
  order.encode header.version ++ order.encode header.timestamp

/-- Reads the body of a header chunk; more bytes may follow. -/
def decode (order : ByteOrder) (bytes : Bytes) : Except ChunkFault FileHeader :=
  match order.word? bytes 0, order.word? bytes 4 with
  | some version, some timestamp => .ok ⟨version, timestamp⟩
  | _, _ => .error (.malformed .header .shortHeader)

end FileHeader

end StageArchive
