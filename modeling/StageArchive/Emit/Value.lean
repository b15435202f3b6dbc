import StageArchive.Asset
import StageArchive.Text.Encoding
import StageArchive.Tree.Value
/-!
# Property values as bytes

Numbers follow the byte order of the run and scalars its encoding. A list starts with its length, which
must fit in a word, a string ends in a zero byte, and one of some variants is its position among them. A
reference to a medium is no bytes but the name of the medium.
-/

namespace StageArchive

/-- A value that has no encoding. -/
inductive ValueFault where
  | unknownVariant (chosen : String) (variants : List String)
  | interiorZero
  /-- A list of so many elements. -/
  | tooLong (count : Nat)
  deriving DecidableEq, Repr

/-- The wording of a fault. -/
def ValueFault.message : ValueFault → String
  | .unknownVariant chosen variants => s!"'{chosen}' is not one of {Text.quoteList variants}"
  | .interiorZero => "string contains a NUL byte"
  | .tooLong count => s!"{count} elements do not fit a u32 count"

/-- An encoded value: bytes to copy, or the name of a medium. -/
inductive EncodedValue where
  | bytes (value : Bytes)
  | asset (name : String)
  deriving DecidableEq, Repr

namespace Value

/-- A signed word. -/
def encodeInt (order : ByteOrder) (value : Int32) : Bytes :=
  order.encode value.toUInt32

/-- Scalars, one after the other. -/
def encodeScalars (order : ByteOrder) (encoding : ScalarEncoding) (values : List Scalar) : Bytes :=
  values.flatMap fun value => order.encode (encoding.encode value)

/-- A text and the zero byte that ends it. -/
def encodeText (text : String) : Except ValueFault Bytes :=
  if text.toList.contains '\x00' then .error .interiorZero else .ok (Text.utf8 text ++ [0])

/-- The length of a list, unless it does not fit in a word. -/
def encodeCount {α : Type} (order : ByteOrder) (items : List α) : Except ValueFault Bytes :=
  if items.length < 2 ^ 32 then .ok (order.encode (UInt32.ofNat items.length))
  else .error (.tooLong items.length)

/-- The length of a list and then its items, one after the other. -/
def encodeList {α : Type} (order : ByteOrder) (encodeItem : α → Bytes) (items : List α) :
    Except ValueFault EncodedValue := do
  let count ← encodeCount order items
  pure (.bytes (count ++ items.flatMap encodeItem))

/-- A list of rows. -/
def encodeRows {count : Nat} (order : ByteOrder) (encoding : ScalarEncoding)
    (rows : List (Row count)) : Except ValueFault EncodedValue :=
  encodeList order (fun row => encodeScalars order encoding row.toList) rows

/-- Texts, one after the other. -/
def encodeTexts : List String → Except ValueFault Bytes
  | [] => .ok []
  | text :: texts => do
    let first ← encodeText text
    let others ← encodeTexts texts
    pure (first ++ others)

/-- The encoding of a value. -/
def encode (order : ByteOrder) (encoding : ScalarEncoding) : Value → Except ValueFault EncodedValue
  | .int value => .ok (.bytes (encodeInt order value))
  | .scalar value => .ok (.bytes (encodeScalars order encoding [value]))
  | .vector2 row => .ok (.bytes (encodeScalars order encoding row.toList))
  | .vector3 row => .ok (.bytes (encodeScalars order encoding row.toList))
  | .vector4 row => .ok (.bytes (encodeScalars order encoding row.toList))
  | .rotation row => .ok (.bytes (encodeScalars order encoding row.toList))
  | .transform rows =>
    .ok (.bytes (rows.toList.flatMap fun row => encodeScalars order encoding row.toList))
  | .string text => (encodeText text).map .bytes
  | .enumeration variants chosen =>
    match variants.idxOf? chosen with
    | none => .error (.unknownVariant chosen variants)
    | some position => .ok (.bytes (order.encode (UInt32.ofNat position)))
  | .intArray values => encodeList order (encodeInt order) values
  | .scalarArray values => encodeList order (fun value => order.encode (encoding.encode value)) values
  | .vector2Array rows => encodeRows order encoding rows
  | .vector3Array rows => encodeRows order encoding rows
  | .vector4Array rows => encodeRows order encoding rows
  | .stringArray texts => do
    let count ← encodeCount order texts
    let bytes ← encodeTexts texts
    pure (.bytes (count ++ bytes))
  | .mediaRef name => .ok (.asset name)

end Value

end StageArchive
