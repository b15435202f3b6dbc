import StageArchive.Symbol.Table
import StageArchive.Json.Shape
import StageArchive.Json.Printer
/-!
# Symbol tables as documents

The table of a run is written beside its entities for other tools to read. Loading puts names and
classes in order again, so an edited document still yields proper indices.
-/

namespace StageArchive

/-- A class as a document; absent metadata is left out. -/
def ClassInfo.toJson (info : ClassInfo) : Json :=
  .object <|
    ("name", .text info.name) ::
      ((info.header.map fun header => ("header", Json.text header)).toList ++
        (info.package.map fun package => ("package", Json.text package)).toList)

/-- Reads a class. -/
def ClassInfo.shape : Json.Shape ClassInfo := fun levels json => do
  let (levels, slots) ← Json.Shape.record .lenient ["name", "header", "package"] levels json
  match slots with
  | [name, header, package] =>
    let metadata := Json.Shape.optional Json.Shape.text
    pure {
      name := ← Json.Shape.required Json.Shape.text levels name
      header := ← Json.Shape.withDefault none metadata levels header
      package := ← Json.Shape.withDefault none metadata levels package }
  | _ => throw .malformed

namespace NamespaceMap

/-- A map with optional values as an object; absent values are left out. -/
def toJson {α : Type} (encode : α → Json) (entries : NamespaceMap (Option α)) : Json :=
  .object <| Namespace.all.filterMap fun space =>
    (entries.get space).map fun value => (space.name, encode value)

/-- The map with the values that a list of entries gives. -/
def ofEntries {α : Type} (entries : List (Namespace × α)) : NamespaceMap (Option α) :=
  .ofFn fun space => (entries.find? (·.1 = space)).map (·.2)

/-- Reads a map from an object whose keys are names of namespaces. -/
def shape {α : Type} (value : Json.Shape α) : Json.Shape (NamespaceMap (Option α)) :=
  fun levels json => (Json.Shape.map Namespace.ofName? value levels json).map ofEntries

end NamespaceMap

namespace SymbolTable

/-- The table as a document. -/
def toJson (table : SymbolTable) : Json :=
  .object [
    ("namespaces", table.spaces.toJson Json.ofTexts),
    ("classes", table.classes.toJson fun classes => .array (classes.map ClassInfo.toJson))]

/-- The text of the document. -/
def print (table : SymbolTable) : String :=
  table.toJson.pretty

/-- Reads a table as it stands in a document. -/
def shape : Json.Shape SymbolTable := fun levels json => do
  let (levels, slots) ← Json.Shape.record .lenient ["namespaces", "classes"] levels json
  match slots with
  | [spaces, classes] =>
    pure {
      spaces := ← Json.Shape.required (NamespaceMap.shape (Json.Shape.list Json.Shape.text))
        levels spaces
      classes := ← Json.Shape.withDefault (.const none)
        (NamespaceMap.shape (Json.Shape.list ClassInfo.shape)) levels classes }
  | _ => throw .malformed

/-- Loads a table from the text of a document. -/
def parse (text : String) : Except Json.Refusal SymbolTable :=
  (Json.Shape.parse shape text).map normalize

end SymbolTable

end StageArchive
