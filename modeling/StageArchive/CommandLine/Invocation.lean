import StageArchive.Config
import StageArchive.Container.Entry
/-!
# Commands

What the program can be asked to do: compile a tree, assemble a container or show a listing.
-/

namespace StageArchive

/-- When a listing has colours. -/
inductive ColourChoice where
  /-- When it goes to a terminal. -/
  | auto
  | always
  | never
  deriving DecidableEq, Repr

namespace ColourChoice

/-- The choice with the given name. -/
def ofName? : String → Option ColourChoice
  | "auto" => some .auto
  | "always" => some .always
  | "never" => some .never
  | _ => none

/-- The name of a choice. -/
def name : ColourChoice → String
  | .auto => "auto"
  | .always => "always"
  | .never => "never"

/-- Whether a listing has colours. -/
def isColoured (choice : ColourChoice) (terminal : Bool) : Bool :=
  match choice with
  | .auto => terminal
  | .always => true
  | .never => false

end ColourChoice

/-- The kind of entity whose file has the given extension. -/
def ChunkKind.ofEntityExtension? : String → Option ChunkKind
  | "grp" => some .group
  | "scn" => some .scene
  | "set" => some .set
  | _ => none

/-- What the program is asked to do. -/
inductive Invocation where
  | compile (tree : Path) (overrides : ConfigOverrides)
  | assemble (manifest : Path) (output : Option Path) (overrides : ConfigOverrides)
  | dump (input : Path) (kind : Option ChunkKind) (symbols : Option Path)
      (byteOrder : Option ByteOrder) (colour : ColourChoice)
  deriving DecidableEq, Repr

end StageArchive
