import StageArchive.Chunk.Layout
/-!
# Reading chunks

A source is a file with a position in it. The byte order of numbers holds until a root form declares
another. Reading past the end leaves the position at the end; a fault never undoes what was read
before it. Every chunk that is found inside another lies inside it.
-/

namespace StageArchive

/-- A file being read. -/
structure Source where
  data : Bytes
  position : Nat
  order : ByteOrder
  deriving DecidableEq, Repr

/-- A step of reading, which may fail and changes the source either way. -/
abbrev Reading (α : Type) := ExceptT ChunkFault (StateM Source) α

namespace Source

/-- A file before anything is read. -/
def start (order : ByteOrder) (data : Bytes) : Source :=
  ⟨data, 0, order⟩

/-- The bytes from the position on. -/
def rest (source : Source) : Bytes :=
  source.data.drop source.position

end Source

namespace Reading

/-- The current position. -/
def position : Reading Nat :=
  return (← get).position

/-- The current byte order. -/
def order : Reading ByteOrder :=
  return (← get).order

/-- Moves to an offset, which may lie past the end. -/
def seek (offset : Nat) : Reading Unit :=
  modify fun source => { source with position := offset }

/-- Reads a number of bytes. -/
def bytes (count : Nat) : Reading Bytes := do
  let source ← get
  if count ≤ source.rest.length then
    set { source with position := source.position + count }
    return source.rest.take count
  else
    set { source with position := source.data.length }
    throw .unexpectedEnd

/-- Reads a tag. -/
def tag : Reading Tag := do
  return (Tag.ofBytes? (← bytes 4)).getD .blank

/-- Reads a word. -/
def word : Reading UInt32 := do
  let four ← bytes 4
  return ((← order).word? four 0).getD 0

/-- Reads a signed word. -/
def signedWord : Reading Int32 :=
  return (← word).toInt32

/-- Enters the chunk at the position. -/
def header : Reading Chunk := do
  let offset ← position
  let name ← tag
  let size ← word
  if name.isForm then
    let subtype ← tag
    return ⟨name, some subtype, offset, size⟩
  else return ⟨name, none, offset, size⟩

/-- Enters the chunk at the position, which must have the given tag. -/
def descend (expected : Tag) : Reading Chunk := do
  let chunk ← header
  if chunk.tag = expected then return chunk
  else throw (.unexpectedTag expected chunk.tag chunk.offset)

/-- Enters the form at the position, which must have the given tags. -/
def descendForm (expected subtype : Tag) : Reading Chunk := do
  let chunk ← descend expected
  let found := chunk.subtype.getD .blank
  if found = subtype then return chunk
  else throw (.unexpectedSubtype subtype found chunk.body)

/-- Enters the root form and takes over the byte order that it declares; its size is in that order
too. -/
def openRoot : Reading Chunk := do
  let start ← position
  let chunk ← descend .form
  let subtype := chunk.subtype.getD .blank
  match subtype.order? with
  | none => throw (.unknownRootSubtype subtype)
  | some order =>
    modify fun source => { source with order := order }
    seek (start + 4)
    let size ← word
    seek chunk.content
    return { chunk with size := size }

/-- Enters the next chunk inside another; none when no header fits before the end of the other. -/
def next? (parent : Chunk) : Reading (Option Chunk) := do
  let offset ← position
  if parent.finish < offset + Chunk.headerLength then return none
  else
    let chunk ← header
    if parent.finish < chunk.finish then
      throw (.overrun chunk.tag chunk.offset chunk.finish parent.finish)
    else return some chunk

/-- Leaves a chunk. -/
def ascend (chunk : Chunk) : Reading Unit :=
  seek chunk.finish

/-- Reads the whole content of a chunk. -/
def content (chunk : Chunk) : Reading Bytes := do
  seek chunk.content
  bytes chunk.contentLength

/-- Reads the given number of entries of a table of contents. -/
def entries : (count : Nat) → Reading (List ContentsEntry)
  | 0 => return []
  | count + 1 => do
    let label ← signedWord
    let offset ← word
    return ⟨label, offset⟩ :: (← entries count)

/-- Reads a table of contents. -/
def contents (chunk : Chunk) : Reading (List ContentsEntry) := do
  seek chunk.content
  let count ← word
  if chunk.contentLength < contentsLength count then throw (.malformed .contents .excessEntries)
  else entries count.toNat

/-- What a step does after another: it goes on from the source the first one leaves. -/
theorem run_bind {α β : Type} (first : Reading α) (next : α → Reading β) (source : Source) :
    (first >>= next) source =
      match (first source : Except ChunkFault α × Source) with
      | (.ok value, after) => next value after
      | (.error fault, after) => ((.error fault, after) : Except ChunkFault β × Source) := by
  change (match (first source : Except ChunkFault α × Source) with
    | (value, after) => ExceptT.bindCont next value after) = _
  rcases (first source : Except ChunkFault α × Source) with ⟨_ | _, _⟩ <;> rfl

theorem run_position (source : Source) :
    position source = (.ok source.position, source) := rfl

/-- A chunk that is entered starts at the position. -/
theorem offset_of_header {source after : Source} {chunk : Chunk}
    (h : header source = (.ok chunk, after)) : chunk.offset = source.position := by
  unfold header at h
  rw [run_bind, run_position] at h
  simp only at h
  rw [run_bind] at h
  split at h
  · rw [run_bind] at h
    split at h
    · split at h
      · rw [run_bind] at h
        split at h <;> cases h
        rfl
      · cases h
        rfl
    · cases h
  · cases h

/-- A chunk found inside another starts at the position and ends inside the other. -/
theorem bounds_of_next? {source after : Source} {parent chunk : Chunk}
    (h : next? parent source = (.ok (some chunk), after)) :
    chunk.offset = source.position ∧ chunk.finish ≤ parent.finish := by
  unfold next? at h
  rw [run_bind, run_position] at h
  simp only at h
  split at h
  · cases h
  · rw [run_bind] at h
    split at h
    · rename_i hheader
      split at h
      · cases h
      · cases h
        exact ⟨offset_of_header hheader, by omega⟩
    · cases h

/-- Leaving a chunk found inside another comes closer to the end of the other. -/
theorem finish_sub_lt_of_next? {source after : Source} {parent chunk : Chunk}
    (h : next? parent source = (.ok (some chunk), after)) :
    parent.finish - chunk.finish < parent.finish - source.position := by
  have ⟨hoffset, hfinish⟩ := bounds_of_next? h
  have hstart : chunk.offset + 8 ≤ chunk.finish := by
    simp only [Chunk.finish, Chunk.body, Chunk.headerLength]
    omega
  omega

/-- The next chunk with a tag from the position on. -/
def findFrom (parent : Chunk) (wanted : Tag) (source : Source) :
    Except ChunkFault (Option Chunk) × Source :=
  match h : next? parent source with
  | (.error fault, after) => (.error fault, after)
  | (.ok none, after) => (.ok none, after)
  | (.ok (some chunk), after) =>
    if chunk.tag = wanted then (.ok (some chunk), after)
    else
      have := finish_sub_lt_of_next? h
      findFrom parent wanted { after with position := chunk.finish }
termination_by parent.finish - source.position

/-- The first chunk with a tag inside another. -/
def find (parent : Chunk) (wanted : Tag) : Reading (Option Chunk) := do
  seek parent.content
  findFrom parent wanted

end Reading

end StageArchive
