import StageArchive.Json.Number
/-!
# JSON documents

A document as a tree. Members of an object keep their order and may repeat a key; what a repetition
means is for the reader of the shape to say. A string whose escapes do not spell Unicode text, and
an object with such a key, is well-formed JSON without a value: it may stand where a value is
ignored and nowhere else.
-/

namespace StageArchive

/-- A JSON document. -/
inductive Json where
  | null
  | bool (value : Bool)
  | number (literal : Json.Number)
  | text (content : String)
  | array (items : List Json)
  | object (members : List (String × Json))
  /-- A string, or an object with a key, that does not spell Unicode text. -/
  | broken
  deriving Repr, Inhabited

namespace Json

/-- A natural number. -/
def ofNat (value : Nat) : Json :=
  .number (.ofNat value)

/-- An integer. -/
def ofInt (value : Int) : Json :=
  .number (.ofInt value)

/-- A list of strings. -/
def ofTexts (texts : List String) : Json :=
  .array (texts.map .text)

/-- A string, or null for none. -/
def ofText? : Option String → Json
  | none => .null
  | some content => .text content

end Json

end StageArchive
