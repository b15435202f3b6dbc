import StageArchive.Config.Document
import StageArchive.Container.Assembler
import StageArchive.Json.Printer
/-!
# Manifests

A manifest says what to assemble: the settings, the output and the entries in order. Paths in a
manifest file start at the file's directory.
-/

namespace StageArchive

open Json (Shape)

namespace ChunkEntry

/-- Reads an entry. -/
def shape : Shape ChunkEntry := fun levels json => do
  let (levels, slots) ← Shape.record .strict ["kind", "source", "name"] levels json
  match slots with
  | [kind, source, name] =>
    pure {
      kind := ← Shape.required (Shape.choice ChunkKind.ofName?) levels kind
      source := ← Shape.required Path.shape levels source
      name := ← Shape.required Shape.text levels name }
  | _ => throw .malformed

/-- An entry as a document. -/
def toJson (entry : ChunkEntry) : Json :=
  .object [("kind", .text entry.kind.name), ("source", .text entry.source.text),
    ("name", .text entry.name)]

end ChunkEntry

/-- What to assemble. -/
structure Manifest where
  config : Config
  output : Path
  chunks : List ChunkEntry
  deriving DecidableEq, Repr

namespace Manifest

/-- Reads a manifest. -/
def shape : Shape Manifest := fun levels json => do
  let (levels, slots) ← Shape.record .strict ["config", "output", "chunks"] levels json
  match slots with
  | [config, output, chunks] =>
    pure {
      config := ← Shape.withDefault .standard Config.shape levels config
      output := ← Shape.required Path.shape levels output
      chunks := ← Shape.withDefault [] (Shape.list ChunkEntry.shape) levels chunks }
  | _ => throw .malformed

/-- The manifest as a document. -/
def toJson (manifest : Manifest) : Json :=
  .object [("config", manifest.config.toJson), ("output", .text manifest.output.text),
    ("chunks", .array (manifest.chunks.map ChunkEntry.toJson))]

/-- The text of the document. -/
def print (manifest : Manifest) : String :=
  manifest.toJson.pretty

/-- The manifest that a text describes. -/
def parse (text : String) : Except Json.Refusal Manifest :=
  Shape.parse shape text

/-- Where output goes when a manifest's paths start at a directory. Without an output directory it
goes to that directory itself. -/
def outputDirectoryFrom (base : Path) (directory : Option Path) : Option Path :=
  match directory with
  | some directory => some (base.join directory)
  | none => if base.text.isEmpty then none else some base

/-- The manifest with its paths starting at a directory. The output stays as it is, since it is
taken from the output directory. -/
def withBase (manifest : Manifest) (base : Path) : Manifest :=
  let config := manifest.config
  { manifest with
    config := { config with outputDirectory := outputDirectoryFrom base config.outputDirectory }
    chunks := manifest.chunks.map fun entry => { entry with source := base.join entry.source } }

/-- The manifest with some settings replaced. -/
def override (manifest : Manifest) (overrides : ConfigOverrides) : Manifest :=
  { manifest with config := manifest.config.override overrides }

section Files

variable {m : Type → Type} [Monad m] [FileAccess m]

/-- The manifest in a file, with its paths starting at the file's directory. -/
def load (path : Path) : ExceptT AssemblyFault m Manifest := do
  let text ← Assembler.accessing path (FileAccess.readText path)
  match parse text with
  | .error refusal => throw (.invalidManifest path refusal)
  | .ok manifest => return manifest.withBase (path.parent?.getD ⟨""⟩)

/-- Assembles what a manifest says, at a time. -/
def assemble (manifest : Manifest) (clock : UInt32) : ExceptT AssemblyFault m AssemblyReport := do
  let assembler ← (Assembler.start manifest.config).registerAll manifest.chunks
  assembler.finalize clock manifest.output

end Files

end Manifest

end StageArchive
