import StageArchive.CommandLine.Arguments
import StageArchive.Compilation
import StageArchive.Listing
import StageArchive.Tree.Document
/-!
# Running a command

A command answers with an exit code, text for the output and notices. A command that fails changes
nothing more and gives one notice.
-/

namespace StageArchive

/-- Something to tell the user besides the output. -/
inductive Notice where
  | warning (text : String)
  | failure (text : String)
  /-- A file that is no document of the expected form. -/
  | invalidDocument (text : String)
  deriving DecidableEq, Repr

/-- The wording of a notice. -/
def Notice.message : Notice → String
  | .warning text => "warning: " ++ text
  | .failure text | .invalidDocument text => "error: " ++ text

/-- What a command leaves. -/
structure Outcome where
  code : UInt32
  output : String
  notices : List Notice
  deriving DecidableEq, Repr

namespace Outcome

/-- A command that has done its work. -/
def success (output : String) (notices : List Notice) : Outcome :=
  ⟨0, output, notices⟩

/-- A command that failed. -/
def failed (notice : Notice) : Outcome :=
  ⟨1, "", [notice]⟩

end Outcome

/-- The notice on a tree that cannot be read. -/
def TreeFault.notice : TreeFault → Notice
  | .invalidDocument refusal =>
    .invalidDocument (TreeFault.invalidDocument refusal).message
  | fault => .failure fault.message

/-- The notice on a container that cannot be assembled. -/
def AssemblyFault.notice : AssemblyFault → Notice
  | .invalidManifest path refusal =>
    .invalidDocument (AssemblyFault.invalidManifest path refusal).message
  | fault => .failure fault.message

/-- The notice on something left out. -/
def SkippedChunk.notice (skipped : SkippedChunk) : Notice :=
  .warning s!"skipped {skipped.kind.name} '{skipped.name}': {skipped.reason}"

namespace Invocation

variable {m : Type → Type} [Monad m] [FileAccess m]

/-- Compiles the tree in a file. -/
def runCompile (tree : Path) (overrides : ConfigOverrides) : m Outcome := do
  match ← Node.load tree with
  | .error fault => return .failed fault.notice
  | .ok root =>
    let config := Config.standard.override overrides
    match ← (Compilation.compile ClassResolver.attributes config root).run with
    | .error fault => return .failed (.failure fault.message)
    | .ok report =>
      return .success (report.manifestPath.text ++ "\n") (report.skipped.map SkippedChunk.notice)

/-- Assembles what a manifest says. -/
def runAssemble (clock : UInt32) (path : Path) (output : Option Path)
    (overrides : ConfigOverrides) : m Outcome := do
  let assembly : ExceptT AssemblyFault m AssemblyReport := do
    let manifest ← Manifest.load path
    let manifest := manifest.override overrides
    { manifest with output := output.getD manifest.output }.assemble clock
  match ← assembly.run with
  | .error fault => return .failed fault.notice
  | .ok report =>
    let chunks := report.written.length
    return .success s!"{report.output.text} ({report.size} bytes, {chunks} chunks)\n"
      (report.skipped.map SkippedChunk.notice)

/-- Loads a symbol table, where one is asked for. -/
def loadSymbols : Option Path → ExceptT Notice m (Option SymbolTable)
  | none => return none
  | some path => do
    match ← (FileAccess.readText path : m (Except FileFault String)) with
    | .error fault => throw (.failure s!"cannot read '{path.text}': {fault.message}")
    | .ok text =>
      match SymbolTable.parse text with
      | .error refusal =>
        throw (.invalidDocument s!"invalid symbol table '{path.text}': {refusal.message}")
      | .ok table => return some table

/-- Shows the listing of a container or of the file of an entity, which its extension may tell. -/
def runDump (input : Path) (kind : Option ChunkKind) (symbols : Option Path)
    (order : ByteOrder) (coloured : Bool) : m Outcome := do
  match ← FileAccess.read input with
  | .error fault => return .failed (.failure s!"cannot read '{input.text}': {fault.message}")
  | .ok content =>
    match ← (loadSymbols symbols).run with
    | .error notice => return .failed notice
    | .ok table =>
      let listing : Listing := ⟨Palette.ofSetting coloured, table⟩
      let text :=
        match kind <|> input.extension?.bind ChunkKind.ofEntityExtension? with
        | some kind => listing.entity kind.tag order content
        | none => listing.file order content
      match text with
      | .error fault => return .failed (.failure fault.message)
      | .ok text => return .success text []

/-- Does what is asked for, at a time and with or without a terminal. -/
def run (clock : UInt32) (terminal : Bool) : Invocation → m Outcome
  | .compile tree overrides => runCompile tree overrides
  | .assemble manifest output overrides => runAssemble clock manifest output overrides
  | .dump input kind symbols order colour =>
    runDump input kind symbols (order.getD .big) (colour.isColoured terminal)

end Invocation

end StageArchive
