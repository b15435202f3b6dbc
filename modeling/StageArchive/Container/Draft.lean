import StageArchive.Container.Assembler
/-!
# A container on its way

While a container grows entry by entry it lies in a draft: a file of its own beside the others, which is
taken away when anything fails and renamed when nothing does. A run that keeps a draft has the file
system as it is at each moment, the draft included; what of the draft has reached the file is left open.
-/

namespace StageArchive

/-- The file system without what lies at a location. -/
def FileSystem.erase (system : FileSystem) (location : Location) : FileSystem :=
  { system with entries := system.entries.filter fun other => other.1 ≠ location }

/-- A container while it is written: what has been written of it, the number of steps that took, and the
file system with the draft. -/
structure Draft where
  sink : Sink
  moment : Nat
  files : FileSystem

/-- A step of a run that keeps a draft. -/
abbrev Drafting (α : Type) := ExceptT AssemblyFault (StateM Draft) α

/-- Where a draft lies, the path that its container is for, and what of it has reached the file at each
moment. -/
structure DraftPlan where
  location : Location
  path : Path
  reached : Nat → Bytes

/-- A draft that differs from a file system only where the plan says. -/
def DraftPlan.draft (plan : DraftPlan) (files : FileSystem) (sink : Sink) (moment : Nat) : Draft :=
  ⟨sink, moment, files.insert plan.location (.file (plan.reached moment))⟩

/-- Takes a step of writing to the draft; also one that fails may leave bytes in it. -/
def drafting {α : Type} (plan : DraftPlan) (step : Writing α) : Drafting α := fun draft =>
  ((step draft.sink).1.mapError (.unwritable plan.path),
    plan.draft draft.files (step draft.sink).2 (draft.moment + 1))

namespace Assembler

/-- What comes of preparing an entry from its file. -/
def outcome (assembler : Assembler) (look : Path → Except FileFault Bytes) (entry : ChunkEntry) :
    Except AssemblyFault PreparedChunk :=
  match look entry.source with
  | .error fault => .error (.inaccessible entry.source fault)
  | .ok content => assembler.prepare entry content

/-- Says what becomes of an entry, from the files as they are with the draft among them. -/
def draftDisposition (assembler : Assembler) (entry : ChunkEntry) : Drafting Disposition := fun draft =>
  (assembler.dispose (assembler.outcome draft.files.read entry), draft)

/-- Prepares and writes entries one by one. -/
def draftEntries (assembler : Assembler) (plan : DraftPlan) :
    List ChunkEntry → Drafting (List (ChunkEntry × Disposition × UInt32))
  | [] => pure []
  | entry :: entries => do
    let disposition ← assembler.draftDisposition entry
    let offset ← drafting plan (writeDisposition disposition)
    let others ← assembler.draftEntries plan entries
    pure ((entry, disposition, offset) :: others)

/-- Writes a whole container: its bytes and the report. -/
def draftContainer (assembler : Assembler) (clock : UInt32) (plan : DraftPlan) :
    Drafting (Bytes × AssemblyReport) := do
  let root ← drafting plan (openContainer assembler.config.byteOrder
    (assembler.config.headerTimestamp clock) (UInt32.ofNat assembler.entries.length))
  let made ← assembler.draftEntries plan assembler.entries
  let (bytes, size) ← drafting plan (closeContainer root)
  pure (bytes, report plan.path size made)

/-- Assembles a container by way of a draft: the draft is created, filled, and either taken away or
renamed to the path of the container. -/
def finalizeInSteps (assembler : Assembler) (clock : UInt32) (output : Path) (location : Location)
    (reached : Nat → Bytes) (files : FileSystem) :
    Except AssemblyFault AssemblyReport × FileSystem :=
  let path := assembler.config.resolveOutput output
  let plan : DraftPlan := ⟨location, path, reached⟩
  if 2 ^ 32 ≤ assembler.entries.length then
    (.error (.tooManyChunks assembler.entries.length), files)
  else
    match files.admitsFiles (directoryOf path) with
    | .error fault => (.error (.inaccessible (directoryOf path) fault), files)
    | .ok () =>
      let (made, draft) :=
        assembler.draftContainer clock plan (plan.draft files (.start assembler.config.byteOrder) 0)
      let others := draft.files.erase location
      match made with
      | .error fault => (.error fault, others)
      | .ok (bytes, report) =>
        match others.place path bytes with
        | .error fault => (.error (.inaccessible path fault), others)
        | .ok changed => (.ok report, changed)

end Assembler

end StageArchive
