import StageArchive.Scalar
/-!
# Property values

A property has a name and a value of one of a fixed set of kinds.
-/

namespace StageArchive

/-- A fixed number of scalars. -/
abbrev Row (count : Nat) := Vector Scalar count

/-- The value of a property. -/
inductive Value where
  | int (value : Int32)
  | scalar (value : Scalar)
  | vector2 (row : Row 2)
  | vector3 (row : Row 3)
  | vector4 (row : Row 4)
  /-- A quaternion. -/
  | rotation (row : Row 4)
  /-- Four rows of three scalars. -/
  | transform (rows : Vector (Row 3) 4)
  | string (text : String)
  /-- One of some named variants. -/
  | enumeration (variants : List String) (chosen : String)
  | intArray (values : List Int32)
  | scalarArray (values : List Scalar)
  | vector2Array (rows : List (Row 2))
  | vector3Array (rows : List (Row 3))
  | vector4Array (rows : List (Row 4))
  | stringArray (texts : List String)
  /-- The name of a medium. -/
  | mediaRef (name : String)
  deriving DecidableEq, Repr

namespace Value

/-- The name of a value's kind. -/
def kindName : Value → String
  | .int _ => "int"
  | .scalar _ => "scalar"
  | .vector2 _ => "vector2"
  | .vector3 _ => "vector3"
  | .vector4 _ => "vector4"
  | .rotation _ => "rotation"
  | .transform _ => "transform"
  | .string _ => "string"
  | .enumeration _ _ => "enum"
  | .intArray _ => "int_array"
  | .scalarArray _ => "scalar_array"
  | .vector2Array _ => "vector2_array"
  | .vector3Array _ => "vector3_array"
  | .vector4Array _ => "vector4_array"
  | .stringArray _ => "string_array"
  | .mediaRef _ => "media_ref"

/-- The medium that a value refers to. -/
def medium? : Value → Option String
  | .mediaRef name => some name
  | _ => none

end Value

/-- A property of a node. -/
structure Property where
  name : String
  value : Value
  deriving DecidableEq, Repr

end StageArchive
