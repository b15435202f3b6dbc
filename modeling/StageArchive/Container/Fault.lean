import StageArchive.Chunk.Fault
import StageArchive.Container.Entry
import StageArchive.Entity.Relinking
import StageArchive.FileSystem
import StageArchive.Json.Shape
/-!
# Faults of assembly

Why a container cannot be assembled. Only an entity that names a missing medium may be left out; any
other fault fails the container.
-/

namespace StageArchive

/-- A reason why a container cannot be assembled. -/
inductive AssemblyFault where
  | missingSource (kind : ChunkKind) (name : String) (path : Path)
  | mediaAfterContent (name content : String) (contentKind : ChunkKind)
  | duplicateMedia (name : String)
  | tooManyChunks (count : Nat)
  | inaccessible (path : Path) (fault : FileFault)
  | unwritable (path : Path) (fault : ChunkFault)
  | invalidMedia (name : String) (path : Path) (fault : ChunkFault)
  | relink (kind : ChunkKind) (name : String) (fault : RelinkFault)
  | set (name : String) (fault : StreamFault)
  | invalidManifest (path : Path) (refusal : Json.Refusal)
  deriving DecidableEq, Repr

namespace AssemblyFault

/-- The wording of a fault. -/
def message : AssemblyFault → String
  | .missingSource kind name path => s!"{kind.name} '{name}': source '{path.text}' does not exist"
  | .mediaAfterContent name content contentKind =>
    s!"media '{name}' registered after {contentKind.name} '{content}'; media must come first"
  | .duplicateMedia name => s!"media '{name}' registered twice"
  | .tooManyChunks count => s!"{count} chunks do not fit the table of contents"
  | .inaccessible path fault => s!"cannot read '{path.text}': {fault.message}"
  | .unwritable path fault => s!"cannot write '{path.text}': {fault.message}"
  | .invalidMedia name path fault =>
    s!"media '{name}' ('{path.text}') is not a valid media list: {fault.message}"
  | .relink kind name fault => s!"{kind.name} '{name}': {fault.message}"
  | .set name fault => s!"set '{name}': {fault.message}"
  | .invalidManifest path refusal => s!"invalid manifest '{path.text}': {refusal.message}"

/-- Whether the entry may be left out. -/
def isRecoverable : AssemblyFault → Bool
  | .relink _ _ fault => fault.isRecoverable
  | _ => false

end AssemblyFault

end StageArchive
