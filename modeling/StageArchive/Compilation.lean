import StageArchive.Container.Manifest
import StageArchive.Emit.Entity
import StageArchive.Symbol.Document
import StageArchive.Tree.Check
/-!
# Compiling a tree

Every entity of a tree becomes a file in the output directory, media first, then sets, groups and
scenes. The symbol table and a manifest of the files go beside them. Nothing is written when the
name of an entity cannot be the name of its file; what is written before a later fault stays.
-/

namespace StageArchive

/-- A reason why a tree cannot be compiled. -/
inductive CompileFault where
  | tree (fault : TreeFault)
  | emit (fault : EmitFault)
  | inaccessible (path : Path) (fault : FileFault)
  deriving DecidableEq, Repr

/-- The wording of a fault. -/
def CompileFault.message : CompileFault → String
  | .tree fault => fault.message
  | .emit fault => fault.message
  | .inaccessible path fault => s!"cannot access '{path.text}': {fault.message}"

/-- A tree that was compiled. -/
structure CompileReport where
  symbols : SymbolTable
  symbolsPath : Path
  manifest : Manifest
  manifestPath : Path
  skipped : List SkippedChunk
  deriving DecidableEq, Repr

namespace Compilation

/-- The file with the symbol table. -/
def symbolsFile : Path := ⟨"symbols.json"⟩

/-- The file with the manifest. -/
def manifestFile : Path := ⟨"playprint.json"⟩

/-- The container that the manifest asks for. -/
def containerFile : Path := ⟨"playprint.ppr"⟩

/-- The kinds of entities in the order in which they are emitted. -/
def passes : List ChunkKind :=
  [.media, .set, .group, .scene]

/-- The entities below the root in the order in which they are emitted. -/
def entities (root : Node) : List (ChunkKind × Node) :=
  passes.flatMap fun kind => (root.descendantsOfKind kind.node).map fun node => (kind, node)

/-- The file of an entity. -/
def entityFile (kind : ChunkKind) (name : String) : Path :=
  ⟨name ++ "." ++ kind.extension⟩

/-- The directory that everything is written to. -/
def outputDirectory (config : Config) : Path :=
  config.outputDirectory.getD ⟨"."⟩

/-- The manifest of some entities. Its paths start at the manifest's directory, so it names no
directories of its own. -/
def manifestOf (config : Config) (chunks : List ChunkEntry) : Manifest where
  config := { config with outputDirectory := none, assetRoot := none }
  output := containerFile
  chunks := chunks

variable {m : Type → Type} [Monad m] [FileAccess m]

/-- A file operation that fails with the path it was for. -/
def accessing {α : Type} (path : Path) (operation : m (Except FileFault α)) :
    ExceptT CompileFault m α :=
  ExceptT.mk do return (← operation).mapError (.inaccessible path)

/-- Emits an entity to its file: an entry for the manifest, or the reason why it is left out. -/
def emitEntity (emitter : Emitter) (kind : ChunkKind) (node : Node) :
    ExceptT CompileFault m (ChunkEntry ⊕ SkippedChunk) := do
  match ← ((emitter.emit node).run : m (Except EmitFault Bytes)) with
  | .ok bytes =>
    let file := entityFile kind node.name
    let path := (outputDirectory emitter.config).join file
    accessing path (FileAccess.write path bytes)
    return .inl ⟨kind, file, node.name⟩
  | .error fault =>
    if fault.isRecoverable && emitter.config.onMissing = .skip then
      return .inr ⟨kind, node.name, fault.message⟩
    else throw (.emit fault)

/-- Emits entities in order: the entries for the manifest, and what is left out. -/
def emitAll (emitter : Emitter) :
    List (ChunkKind × Node) → ExceptT CompileFault m (List ChunkEntry × List SkippedChunk)
  | [] => return ([], [])
  | (kind, node) :: others => do
    let outcome ← emitEntity emitter kind node
    let (entries, skipped) ← emitAll emitter others
    match outcome with
    | .inl entry => return (entry :: entries, skipped)
    | .inr skip => return (entries, skip :: skipped)

/-- Compiles a tree. -/
def compile (resolver : ClassResolver) (config : Config) (root : Node) :
    ExceptT CompileFault m CompileReport := do
  match root.checkNames with
  | .error fault => throw (.tree fault)
  | .ok () =>
    let directory := outputDirectory config
    accessing directory (FileAccess.createDirectories directory)
    let symbols := SymbolTable.scan resolver root
    let emitter : Emitter := ⟨root, resolver, symbols, config⟩
    let (entries, skipped) ← emitAll emitter (entities root)
    let symbolsPath := directory.join symbolsFile
    accessing symbolsPath (FileAccess.write symbolsPath (Text.utf8 symbols.print))
    let manifest := manifestOf config entries
    let manifestPath := directory.join manifestFile
    accessing manifestPath (FileAccess.write manifestPath (Text.utf8 manifest.print))
    return ⟨symbols, symbolsPath, manifest, manifestPath, skipped⟩

end Compilation

end StageArchive
