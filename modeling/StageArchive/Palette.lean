/-!
# Terminal colours of a listing

A listing marks three kinds of text: tags and opcode names, resolved names, and structural noise.
With colours off the marks are empty, so both settings share one renderer.
-/

namespace StageArchive

/-- The escape sequences that open each kind of text, and the one that closes them all. -/
structure Palette where
  blue : String
  green : String
  dim : String
  reset : String
  deriving DecidableEq, Repr

namespace Palette

/-- The sequences of an ANSI terminal. -/
def ansi : Palette :=
  ⟨"\x1b[34m", "\x1b[32m", "\x1b[2m", "\x1b[0m"⟩

/-- No sequences at all. -/
def plain : Palette :=
  ⟨"", "", "", ""⟩

/-- The palette for a colour setting. -/
def ofSetting (coloured : Bool) : Palette :=
  if coloured then ansi else plain

/-- A palette has colours when it has something to close. -/
def isColoured (palette : Palette) : Bool :=
  !palette.reset.isEmpty

/-- A chunk tag or an opcode name. -/
def tag (palette : Palette) (text : String) : String :=
  palette.blue ++ text ++ palette.reset

/-- A resolved name. -/
def name (palette : Palette) (text : String) : String :=
  palette.green ++ text ++ palette.reset

/-- An offset or a size. -/
def note (palette : Palette) (text : String) : String :=
  palette.dim ++ text ++ palette.reset

end Palette

end StageArchive
