import StageArchive.Chunk.Sink
import StageArchive.Config
import StageArchive.Container.Fault
import StageArchive.Media
/-!
# Assembling a container

Entries are registered one by one and then written into one file: a root form with a header, a table
of contents and a chunk for every entry. Each entry is read and prepared when the chunks of those before
it have been written. Entities are linked to the registered media on the way; an entity that names a
missing medium may be left out, and its place in the table stays zero. The file is put in place only
when it is complete.
-/

namespace StageArchive

/-- The entries of a container, and the numbers of the media among them. -/
structure Assembler where
  config : Config
  entries : List ChunkEntry
  assets : NameIndex
  deriving DecidableEq

/-- What is written for an entry. -/
inductive PreparedChunk where
  /-- A file that is a chunk already. -/
  | whole (bytes : Bytes)
  /-- The body of a chunk. -/
  | body (tag : Tag) (bytes : Bytes)
  deriving DecidableEq, Repr

/-- What becomes of an entry: it is written, or left out for a reason. -/
inductive Disposition where
  | written (chunk : PreparedChunk)
  | skipped (reason : String)
  deriving DecidableEq, Repr

/-- A container that was assembled. -/
structure AssemblyReport where
  output : Path
  size : Nat
  written : List WrittenChunk
  skipped : List SkippedChunk
  deriving DecidableEq, Repr

namespace Assembler

/-- No entries. -/
def start (config : Config) : Assembler :=
  ⟨config, [], .empty⟩

/-- Adds an entry whose file is there. Media must come first and have different names. -/
def accept (assembler : Assembler) (entry : ChunkEntry) : Except AssemblyFault Assembler :=
  if entry.kind = .media then
    match assembler.entries.find? (·.kind ≠ .media) with
    | some content => .error (.mediaAfterContent entry.name content.name content.kind)
    | none =>
      if (assembler.assets.number? entry.name).isSome then .error (.duplicateMedia entry.name)
      else
        .ok { assembler with
          entries := assembler.entries ++ [entry]
          assets := assembler.assets.add entry.name }
  else .ok { assembler with entries := assembler.entries ++ [entry] }

/-- The payload in the file of a set, all of which must be readable. -/
def prepareSet (order : ByteOrder) (content : Bytes) : Except StreamFault Bytes := do
  let body ← SetPayload.ofFile order content
  let payload ← SetPayload.decode order body
  let _ ← payload.instructions order
  pure body

/-- What is written for an entry with the given file. -/
def prepare (assembler : Assembler) (entry : ChunkEntry) (content : Bytes) :
    Except AssemblyFault PreparedChunk :=
  let order := assembler.config.byteOrder
  match entry.kind with
  | .media =>
    match MediaList.decode order content with
    | .error fault => .error (.invalidMedia entry.name entry.source fault)
    | .ok _ => .ok (.whole content)
  | .group | .scene =>
    match relinkEntity order assembler.assets content with
    | .error fault => .error (.relink entry.kind entry.name fault)
    | .ok body => .ok (.body entry.kind.tag body)
  | .set =>
    match prepareSet order content with
    | .error fault => .error (.set entry.name fault)
    | .ok body => .ok (.body .set body)

/-- What becomes of an entry with the given outcome: under the skipping policy a recoverable fault
leaves it out. -/
def dispose (assembler : Assembler) (outcome : Except AssemblyFault PreparedChunk) :
    Except AssemblyFault Disposition :=
  match outcome with
  | .ok chunk => .ok (.written chunk)
  | .error fault =>
    if fault.isRecoverable && assembler.config.onMissing = .skip then
      .ok (.skipped fault.message)
    else .error fault

/-- Writes one chunk, enters it in the table of contents and gives its offset. -/
def writeChunk (chunk : PreparedChunk) : Writing UInt32 := do
  let offset ← Writing.offset
  match chunk with
  | .whole bytes => Writing.bytes bytes
  | .body tag bytes =>
    let _ ← Writing.chunk tag bytes
  Writing.addEntry ⟨0, offset⟩
  return offset

/-- Writes the chunk of an entry and enters it, or enters a zero if the entry is left out. -/
def writeDisposition : Disposition → Writing UInt32
  | .written chunk => writeChunk chunk
  | .skipped _ => do
    Writing.addEntry ⟨0, 0⟩
    return 0

/-- Writes what comes before the entries, with room for the table of contents. -/
def openContainer (order : ByteOrder) (timestamp count : UInt32) : Writing ChunkMark := do
  let root ← Writing.openForm .form (.ofOrder order)
  let _ ← Writing.chunk .header ((FileHeader.ofTimestamp timestamp).encode order)
  Writing.reserveContents count
  return root

/-- Fills in what was left open: the bytes of the container and the size of its root form. -/
def closeContainer (root : ChunkMark) : Writing (Bytes × UInt32) := do
  Writing.fillContents
  let size ← Writing.close root
  return (← Writing.finish, size)

/-- A step of writing to the file with a path. -/
def writing {α : Type} (path : Path) (sink : Sink) (step : Writing α) :
    Except AssemblyFault (α × Sink) :=
  match step sink with
  | (.ok value, after) => .ok (value, after)
  | (.error fault, _) => .error (.unwritable path fault)

/-- The entries that are written, with the offsets of their chunks. -/
def writtenChunks : List (ChunkEntry × Disposition × UInt32) → List WrittenChunk
  | [] => []
  | (entry, .written _, offset) :: rest => ⟨entry.kind, entry.name, offset⟩ :: writtenChunks rest
  | (_, .skipped _, _) :: rest => writtenChunks rest

/-- The entries that are left out, with the reasons. -/
def skippedChunks : List (ChunkEntry × Disposition) → List SkippedChunk
  | [] => []
  | (_, .written _) :: rest => skippedChunks rest
  | (entry, .skipped reason) :: rest => ⟨entry.kind, entry.name, reason⟩ :: skippedChunks rest

/-- The report on a container whose root form has a size, from what became of each entry and its
offset. -/
def report (path : Path) (size : UInt32) (made : List (ChunkEntry × Disposition × UInt32)) :
    AssemblyReport where
  output := path
  size := size.toNat + Chunk.headerLength
  written := writtenChunks made
  skipped := skippedChunks (made.map fun (entry, disposition, _) => (entry, disposition))

/-- The directory in which a file is created. -/
def directoryOf (path : Path) : Path :=
  match path.parent? with
  | none => ⟨"."⟩
  | some parent => if parent.text.isEmpty then ⟨"."⟩ else parent

section Files

variable {m : Type → Type} [Monad m] [FileAccess m]

/-- A file operation that fails with the path it was for. -/
def accessing {α : Type} (path : Path) (operation : m (Except FileFault α)) :
    ExceptT AssemblyFault m α :=
  ExceptT.mk do return (← operation).mapError (.inaccessible path)

/-- Adds an entry, whose file must be there. -/
def register (assembler : Assembler) (entry : ChunkEntry) : ExceptT AssemblyFault m Assembler :=
  ExceptT.mk do
    if ← FileAccess.isFile entry.source then return assembler.accept entry
    else return .error (.missingSource entry.kind entry.name entry.source)

/-- Adds entries in order. -/
def registerAll (assembler : Assembler) : List ChunkEntry → ExceptT AssemblyFault m Assembler
  | [] => pure assembler
  | entry :: entries => do
    let assembler ← assembler.register entry
    assembler.registerAll entries

/-- Reads the file of an entry and says what becomes of it. -/
def disposeEntry (assembler : Assembler) (entry : ChunkEntry) :
    ExceptT AssemblyFault m Disposition :=
  ExceptT.mk do
    match ← FileAccess.read entry.source with
    | .error fault => return .error (.inaccessible entry.source fault)
    | .ok content => return assembler.dispose (assembler.prepare entry content)

/-- Prepares entries one by one, each when those before it have been written: what became of each, and
its offset. -/
def assembleEntries (assembler : Assembler) (path : Path) : List ChunkEntry → Sink →
    ExceptT AssemblyFault m (List (ChunkEntry × Disposition × UInt32) × Sink)
  | [], sink => pure ([], sink)
  | entry :: entries, sink => do
    let disposition ← assembler.disposeEntry entry
    let (offset, sink) ← (writing path sink (writeDisposition disposition) : Except AssemblyFault _)
    let (others, sink) ← assembler.assembleEntries path entries sink
    return ((entry, disposition, offset) :: others, sink)

/-- Writes a container: its bytes and the report on it. -/
def assemble (assembler : Assembler) (clock : UInt32) (path : Path) :
    ExceptT AssemblyFault m (Bytes × AssemblyReport) := do
  let order := assembler.config.byteOrder
  let (root, sink) ← (writing path (.start order)
    (openContainer order (assembler.config.headerTimestamp clock)
      (UInt32.ofNat assembler.entries.length)) : Except AssemblyFault _)
  let (made, sink) ← assembler.assembleEntries path assembler.entries sink
  let ((bytes, size), _) ← (writing path sink (closeContainer root) : Except AssemblyFault _)
  return (bytes, report path size made)

/-- Assembles the container at a time and puts it in place at a path. -/
def finalize (assembler : Assembler) (clock : UInt32) (output : Path) :
    ExceptT AssemblyFault m AssemblyReport := do
  let path := assembler.config.resolveOutput output
  if 2 ^ 32 ≤ assembler.entries.length then throw (.tooManyChunks assembler.entries.length)
  let directory := directoryOf path
  accessing directory (FileAccess.admitsFiles directory)
  let (bytes, report) ← assembler.assemble clock path
  accessing path (FileAccess.place path bytes)
  return report

end Files

end Assembler

end StageArchive
