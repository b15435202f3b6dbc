import StageArchive.Chunk.Tag
/-!
# Faults of containers

What can be wrong with the chunks of a file, or with the way they are written.
-/

namespace StageArchive

/-- What is wrong with the body of a chunk. -/
inductive Malformation where
  | shortHeader
  | excessEntries
  | shortInfo
  | shortReference
  | missingChunks
  deriving DecidableEq, Repr

/-- The wording of a malformation. -/
def Malformation.message : Malformation → String
  | .shortHeader => "header body shorter than 8 bytes"
  | .excessEntries => "entry count exceeds chunk size"
  | .shortInfo => "info body shorter than 12 bytes"
  | .shortReference => "mref body shorter than its fixed fields"
  | .missingChunks => "fewer chunks than declared"

/-- A reason to refuse a file or an operation on it. -/
inductive ChunkFault where
  /-- The data end before what is read. -/
  | unexpectedEnd
  | unexpectedTag (expected found : Tag) (offset : Nat)
  | unexpectedSubtype (expected found : Tag) (offset : Nat)
  | unknownRootSubtype (subtype : Tag)
  | overrun (tag : Tag) (offset finish limit : Nat)
  | lengthMismatch (declared actual : Nat)
  | sizeOverflow (size : Nat)
  | offsetOverflow (offset : Nat)
  | malformed (tag : Tag) (reason : Malformation)
  | contentsAlreadyReserved
  | contentsNotReserved
  | contentsFull (reserved : UInt32)
  | contentsCountMismatch (reserved : UInt32) (written : Nat)
  deriving DecidableEq, Repr

/-- The wording of a fault. -/
def ChunkFault.message : ChunkFault → String
  | .unexpectedEnd => "I/O error: failed to fill whole buffer"
  | .unexpectedTag expected found offset =>
    s!"expected chunk '{expected.label}' at offset {offset}, found '{found.label}'"
  | .unexpectedSubtype expected found offset =>
    s!"expected sub-type '{expected.label}' at offset {offset}, found '{found.label}'"
  | .unknownRootSubtype subtype => s!"unknown root sub-type '{subtype.label}'"
  | .overrun tag offset finish limit =>
    s!"chunk '{tag.label}' at offset {offset} ends at {finish}, past its parent's end {limit}"
  | .lengthMismatch declared actual =>
    s!"chunk declares {declared} bytes but {actual} are available"
  | .sizeOverflow size => s!"chunk body of {size} bytes does not fit a 32-bit size field"
  | .offsetOverflow offset => s!"file offset {offset} does not fit in 32 bits"
  | .malformed tag reason => s!"malformed '{tag.label}' chunk: {reason.message}"
  | .contentsAlreadyReserved => "table of contents already reserved"
  | .contentsNotReserved => "table of contents not reserved"
  | .contentsFull reserved => s!"table of contents is full ({reserved} entries)"
  | .contentsCountMismatch reserved written =>
    s!"table of contents reserves {reserved} entries but {written} were added"

end StageArchive
