import StageArchive.Config.Document
import StageArchive.Json.ScalarLiteral
import StageArchive.Tree.Check
/-!
# Authoring trees as documents

A node is an object with its children inside it. Nodes and media sources refuse fields they do not
know; properties ignore them. Everything but the kind and name of a node may be left out.
-/

namespace StageArchive

namespace Json.Shape

/-- An array of exactly the given number of values. -/
def vector {α : Type} (count : Nat) (shape : Shape α) : Shape (Vector α count) :=
  fun levels json => do
    let items ← list shape levels json
    if h : items.length = count then pure ⟨items.toArray, by simpa using h⟩ else throw .malformed

end Json.Shape

open Json (Shape)

namespace Value

/-- Reads the two fields of an enumeration. -/
def enumerationShape : Shape Value := fun levels json => do
  let (levels, slots) ← Shape.record .lenient ["variants", "value"] levels json
  match slots with
  | [variants, chosen] =>
    pure (.enumeration (← Shape.required (Shape.list Shape.text) levels variants)
      (← Shape.required Shape.text levels chosen))
  | _ => throw .malformed

/-- Reads a value of the kind with the given name. -/
def shapeOf? (kind : String) : Option (Shape Value) :=
  let row (count : Nat) : Shape (Row count) := Shape.vector count Shape.scalar
  let as {α : Type} (shape : Shape α) (wrap : α → Value) : Option (Shape Value) :=
    some fun levels json => (shape levels json).map wrap
  match kind with
  | "int" => as Shape.int .int
  | "scalar" => as Shape.scalar .scalar
  | "vector2" => as (row 2) .vector2
  | "vector3" => as (row 3) .vector3
  | "vector4" => as (row 4) .vector4
  | "rotation" => as (row 4) .rotation
  | "transform" => as (Shape.vector 4 (row 3)) .transform
  | "string" => as Shape.text .string
  | "enum" => some enumerationShape
  | "int_array" => as (Shape.list Shape.int) .intArray
  | "scalar_array" => as (Shape.list Shape.scalar) .scalarArray
  | "vector2_array" => as (Shape.list (row 2)) .vector2Array
  | "vector3_array" => as (Shape.list (row 3)) .vector3Array
  | "vector4_array" => as (Shape.list (row 4)) .vector4Array
  | "string_array" => as (Shape.list Shape.text) .stringArray
  | "media_ref" => as Shape.text .mediaRef
  | _ => none

/-- Reads a value: an object with one member, whose key names the kind. -/
def shape : Shape Value :=
  Shape.tagged shapeOf?

/-- A row as an array. -/
def rowJson {count : Nat} (row : Row count) : Json :=
  .array (row.toList.map Json.ofScalar)

/-- The content of a value. -/
def contentJson : Value → Json
  | .int value => Json.ofInt value.toInt
  | .scalar value => Json.ofScalar value
  | .vector2 row => rowJson row
  | .vector3 row => rowJson row
  | .vector4 row => rowJson row
  | .rotation row => rowJson row
  | .transform rows => .array (rows.toList.map rowJson)
  | .string text => .text text
  | .enumeration variants chosen =>
    .object [("variants", Json.ofTexts variants), ("value", .text chosen)]
  | .intArray values => .array (values.map fun value => Json.ofInt value.toInt)
  | .scalarArray values => .array (values.map Json.ofScalar)
  | .vector2Array rows => .array (rows.map rowJson)
  | .vector3Array rows => .array (rows.map rowJson)
  | .vector4Array rows => .array (rows.map rowJson)
  | .stringArray texts => Json.ofTexts texts
  | .mediaRef name => .text name

/-- A value as an object whose key names its kind. -/
def toJson (value : Value) : Json :=
  .object [(value.kindName, value.contentJson)]

end Value

namespace Property

/-- Reads a property. -/
def shape : Shape Property := fun levels json => do
  let (levels, slots) ← Shape.record .lenient ["name", "value"] levels json
  match slots with
  | [name, value] =>
    pure ⟨← Shape.required Shape.text levels name, ← Shape.required Value.shape levels value⟩
  | _ => throw .malformed

/-- A property as an object. -/
def toJson (property : Property) : Json :=
  .object [("name", .text property.name), ("value", property.value.toJson)]

end Property

namespace MediaSource

/-- Reads a media source. -/
def shape : Shape MediaSource := fun levels json => do
  let (levels, slots) ← Shape.record .strict ["flags", "kind", "path", "embed"] levels json
  match slots with
  | [flags, kind, path, embed] =>
    pure {
      flags := ← Shape.withDefault 0 Shape.word levels flags
      kind := ← Shape.required Shape.text levels kind
      path := ← Shape.required Path.shape levels path
      embed := ← Shape.withDefault false Shape.bool levels embed }
  | _ => throw .malformed

/-- A media source as an object. -/
def toJson (source : MediaSource) : Json :=
  .object [("flags", Json.ofNat source.flags.toNat), ("kind", .text source.kind),
    ("path", .text source.path.text), ("embed", .bool source.embed)]

end MediaSource

/-- Reads the kind of a node. -/
def NodeKind.shape : Shape NodeKind :=
  Shape.choice NodeKind.ofName?

namespace Node

/-- Reads a node below which nodes are nested at most as deep as given. -/
def shapeWithin : (depth : Nat) → Shape Node
  | 0 => fun _ _ => .error .malformed
  | depth + 1 => fun levels json => do
    let (levels, slots) ←
      Shape.record .strict
        ["kind", "name", "attributes", "flags", "properties", "media", "children"] levels json
    match slots with
    | [kind, name, attributes, flags, properties, media, children] =>
      pure <| mk {
        kind := ← Shape.required NodeKind.shape levels kind
        name := ← Shape.required Shape.text levels name
        attributes := ← Shape.withDefault [] (Shape.map some Shape.text) levels attributes
        flags := ← Shape.withDefault 0 Shape.word levels flags
        properties := ← Shape.withDefault [] (Shape.list Property.shape) levels properties
        media := ← Shape.withDefault [] (Shape.list MediaSource.shape) levels media }
        (← Shape.withDefault [] (Shape.list (shapeWithin depth)) levels children)
    | _ => throw .malformed

/-- Reads a node. Every node uses a level, so no nodes are nested deeper than there are levels. -/
def shape : Shape Node := fun levels json =>
  shapeWithin levels levels json

/-- The members that a node has besides its children. -/
def ownMembers (data : NodeData) : List (String × Json) :=
  let unlessEmpty {α : Type} (key : String) (items : List α) (json : Json) :=
    if items.isEmpty then [] else [(key, json)]
  [("kind", .text data.kind.name), ("name", .text data.name)] ++
    unlessEmpty "attributes" data.attributes
      (.object (data.attributes.map fun (key, value) => (key, .text value))) ++
    [("flags", Json.ofNat data.flags.toNat)] ++
    unlessEmpty "properties" data.properties (.array (data.properties.map Property.toJson)) ++
    unlessEmpty "media" data.media (.array (data.media.map MediaSource.toJson))

mutual

/-- A node as an object; empty parts are left out. -/
def toJson : Node → Json
  | mk data [] => .object (ownMembers data)
  | mk data (child :: children) =>
    .object (ownMembers data ++ [("children", .array (toJson child :: toJsonAll children))])

/-- Nodes as objects. -/
def toJsonAll : List Node → List Json
  | [] => []
  | node :: nodes => toJson node :: toJsonAll nodes

end

/-- The tree that a text describes, whether or not it is well-formed. -/
def parseUnchecked (text : String) : Except Json.Refusal Node :=
  Shape.parse shape text

/-- The well-formed tree that a text describes. -/
def parse (text : String) : Except TreeFault Node :=
  match parseUnchecked text with
  | .error refusal => .error (.invalidDocument refusal)
  | .ok root => root.check.map fun _ => root

/-- The well-formed tree that a file describes. -/
def load {m : Type → Type} [Monad m] [FileAccess m] (path : Path) : m (Except TreeFault Node) := do
  match ← FileAccess.readText path with
  | .error fault => pure (.error (.unreadable path fault))
  | .ok text => pure (parse text)

end Node

end StageArchive
