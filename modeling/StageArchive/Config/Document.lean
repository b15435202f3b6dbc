import StageArchive.Config
import StageArchive.Json.Shape
/-!
# Settings as documents

Every setting may be left out and then has its standard value. Unknown settings are refused.
-/

namespace StageArchive

open Json (Shape)

/-- Reads a path. -/
def Path.shape : Shape Path := fun levels json =>
  (Shape.text levels json).map Path.mk

/-- A path as a string, or null. -/
def Path.toJson? (path : Option Path) : Json :=
  Json.ofText? (path.map (·.text))

/-- Reads one of some values by name. -/
def Json.Shape.oneOf {α : Type} (values : List α) (name : α → String) : Shape α :=
  Shape.choice fun text => values.find? fun value => name value == text

namespace Config

/-- The fields of the document. -/
def fields : List String :=
  ["output_dir", "byte_order", "scalar", "verbose", "on_missing", "timestamp", "asset_root"]

/-- Reads settings. -/
def shape : Shape Config := fun levels json => do
  let (levels, slots) ← Shape.record .strict fields levels json
  match slots with
  | [outputDirectory, byteOrder, scalar, verbose, onMissing, timestamp, assetRoot] =>
    pure {
      outputDirectory :=
        ← Shape.withDefault none (Shape.optional Path.shape) levels outputDirectory
      byteOrder :=
        ← Shape.withDefault .big (Shape.oneOf [.big, .little] ByteOrder.name) levels byteOrder
      scalar :=
        ← Shape.withDefault .float
          (Shape.oneOf [.float, .fixed16, .fixed20] ScalarEncoding.name) levels scalar
      verbose := ← Shape.withDefault false Shape.bool levels verbose
      onMissing :=
        ← Shape.withDefault .abort (Shape.oneOf [.abort, .skip] MissingPolicy.name) levels onMissing
      timestamp := ← Shape.withDefault none (Shape.optional Shape.word) levels timestamp
      assetRoot := ← Shape.withDefault none (Shape.optional Path.shape) levels assetRoot }
  | _ => throw .malformed

/-- The settings as a document. -/
def toJson (config : Config) : Json :=
  .object [
    ("output_dir", Path.toJson? config.outputDirectory),
    ("byte_order", .text config.byteOrder.name),
    ("scalar", .text config.scalar.name),
    ("verbose", .bool config.verbose),
    ("on_missing", .text config.onMissing.name),
    ("timestamp", (config.timestamp.map fun seconds => Json.ofNat seconds.toNat).getD .null),
    ("asset_root", Path.toJson? config.assetRoot)]

/-- The settings that a text describes. -/
def parse (text : String) : Except Json.Refusal Config :=
  Shape.parse shape text

end Config

end StageArchive
