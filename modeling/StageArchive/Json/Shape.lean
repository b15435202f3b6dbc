import StageArchive.Json.Reader
/-!
# Reading values of a known shape

A shape reads a typed value out of a document, or says why it refuses it. Every shape is given how
many levels of containers may still be entered; entering one uses a level, and a value that is
ignored is never entered. A record is read from an object by field name, or from an array by
position, where missing fields may only be the last ones; either way the result is a list of
optional values in field order.
-/

namespace StageArchive.Json

/-- How many containers may be nested in a document. -/
def nestingLimit : Nat := 127

/-- Why a document does not describe a value of the expected shape. -/
inductive Refusal where
  | unknownField (name : String)
  | unknownVariant (name : String)
  /-- The text is not JSON, or a value in it is of another form or out of range. -/
  | malformed
  deriving DecidableEq, Repr

/-- The wording of a refusal. -/
def Refusal.message : Refusal → String
  | .unknownField name => s!"unknown field `{name}`"
  | .unknownVariant name => s!"unknown variant `{name}`"
  | .malformed => "malformed document"

/-- Reads a value, given how many levels of containers may still be entered. -/
abbrev Shape (α : Type) := (levels : Nat) → Json → Except Refusal α

namespace Shape

/-- A value that may be missing, as one that must be there. -/
def demand {α : Type} : Option α → Except Refusal α
  | some value => .ok value
  | none => .error .malformed

/-- A string. -/
def text : Shape String
  | _, .text content => .ok content
  | _, _ => .error .malformed

/-- A truth value. -/
def bool : Shape Bool
  | _, .bool value => .ok value
  | _, _ => .error .malformed

/-- An integer literal within a range. -/
def integer (least greatest : Int) : Shape Int
  | _, .number literal =>
    match literal.integer? with
    | some value => if least ≤ value && value ≤ greatest then .ok value else .error .malformed
    | none => .error .malformed
  | _, _ => .error .malformed

/-- An unsigned 32-bit integer. -/
def word : Shape UInt32 := fun levels json =>
  (integer 0 (2 ^ 32 - 1) levels json).map fun value => UInt32.ofNat value.toNat

/-- A signed 32-bit integer. -/
def int : Shape Int32 := fun levels json =>
  (integer (-(2 ^ 31)) (2 ^ 31 - 1) levels json).map Int32.ofInt

/-- A number of any form, as a scalar. -/
def scalar : Shape Scalar
  | _, .number literal => demand literal.scalar?
  | _, _ => .error .malformed

/-- A value or null. -/
def optional {α : Type} (shape : Shape α) : Shape (Option α)
  | _, .null => .ok none
  | levels, json => (shape levels json).map some

/-- An array of values of one shape. -/
def list {α : Type} (shape : Shape α) : Shape (List α)
  | levels + 1, .array items => items.mapM (shape levels)
  | _, _ => .error .malformed

/-- The only value of a unit: null. -/
def unit : Shape Unit
  | _, .null => .ok ()
  | _, _ => .error .malformed

/-- An object with exactly one member, whose key names the shape of its value. An unknown name is
refused before anything else, also where it stands alone as a string. -/
def tagged {α : Type} (shapeOf? : String → Option (Shape α)) : Shape α
  | levels + 1, .object ((key, json) :: others) =>
    match shapeOf? key with
    | none => .error (.unknownVariant key)
    | some shape => do
      let value ← shape levels json
      if others.isEmpty then pure value else .error .malformed
  | _, .text name => .error (if (shapeOf? name).isSome then .malformed else .unknownVariant name)
  | _, _ => .error .malformed

/-- One of some named values: its name, or an object that maps the name to null. -/
def choice {α : Type} (ofName? : String → Option α) : Shape α := fun levels json =>
  match json with
  | .text name =>
    match ofName? name with
    | some value => .ok value
    | none => .error (.unknownVariant name)
  | _ =>
    tagged (fun name => (ofName? name).map fun value levels json =>
      (unit levels json).map fun _ => value) levels json

/-- Replaces the value of a key that is present, or appends the key. -/
def insertLast {κ α : Type} [DecidableEq κ] (key : κ) (value : α) :
    List (κ × α) → List (κ × α)
  | [] => [(key, value)]
  | (head, previous) :: rest =>
    if head = key then (head, value) :: rest else (head, previous) :: insertLast key value rest

/-- An object as a map: a key keeps its first place and its last value. -/
def map {κ α : Type} [DecidableEq κ] (keyOf? : String → Option κ) (shape : Shape α) :
    Shape (List (κ × α))
  | levels + 1, .object members =>
    members.foldlM (fun entries (name, json) =>
      match keyOf? name with
      | none => .error (.unknownVariant name)
      | some key => (shape levels json).map fun value => insertLast key value entries) []
  | _, _ => .error .malformed

/-- Whether a record refuses fields it does not know. -/
inductive Strictness where
  | strict
  | lenient
  deriving DecidableEq, Repr

/-- The values of a field among members. -/
def valuesOf (members : List (String × Json)) (field : String) : List Json :=
  (members.filter (·.1 == field)).map (·.2)

/-- The first member of a record that is none of the given fields. -/
def unknownField? (fields : List String) (members : List (String × Json)) : Option String :=
  (members.map (·.1)).find? fun name => !fields.contains name

/-- The values of the given fields of a record, with the levels left for them. A field may not be
repeated; an array has no more items than there are fields. -/
def record (strictness : Strictness) (fields : List String) :
    (levels : Nat) → Json → Except Refusal (Nat × List (Option Json))
  | levels + 1, .object members =>
    match strictness, unknownField? fields members with
    | .strict, some name => .error (.unknownField name)
    | _, _ =>
      if fields.any (fun field => 1 < (valuesOf members field).length) then .error .malformed
      else .ok (levels, fields.map fun field => (valuesOf members field).head?)
  | levels + 1, .array items =>
    if items.length ≤ fields.length then
      .ok (levels, (List.range fields.length).map fun index => items[index]?)
    else .error .malformed
  | _, _ => .error .malformed

/-- The value of a field that must be present. -/
def required {α : Type} (shape : Shape α) (levels : Nat) (slot : Option Json) :
    Except Refusal α := do
  shape levels (← demand slot)

/-- The value of a field that may be absent. -/
def withDefault {α : Type} (default : α) (shape : Shape α) (levels : Nat) (slot : Option Json) :
    Except Refusal α :=
  match slot with
  | none => .ok default
  | some json => shape levels json

/-- The value that a text describes. -/
def parse {α : Type} (shape : Shape α) (text : String) : Except Refusal α := do
  shape nestingLimit (← demand (Json.parse? text))

end Shape

end StageArchive.Json
