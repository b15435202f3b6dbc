import StageArchive.ByteOrder
import StageArchive.Text.Quoted
/-!
# Tags

A chunk begins with a tag of four bytes, which says what the chunk holds and never depends on the
byte order. The tags of forms, whose bodies hold further chunks, are told apart by name alone.
-/

namespace StageArchive

/-- Four bytes that name a chunk or what a form holds. -/
structure Tag where
  first : UInt8
  second : UInt8
  third : UInt8
  fourth : UInt8
  deriving DecidableEq, Repr

namespace Tag

/-- The tag spelled by four characters. -/
def ofChars (first second third fourth : Char) : Tag :=
  ⟨first.toUInt8, second.toUInt8, third.toUInt8, fourth.toUInt8⟩

/-- A form. -/
def form : Tag := ofChars 'F' 'O' 'R' 'M'

/-- A list, which is a form too. -/
def list : Tag := ofChars 'L' 'I' 'S' 'T'

/-- What a root form of a big-endian container holds. -/
def rootBig : Tag := ofChars 'P' 'P' 'B' 'E'

/-- What a root form of a little-endian container holds. -/
def rootLittle : Tag := ofChars 'P' 'P' 'L' 'E'

/-- A list of media references. -/
def mediaList : Tag := ofChars 'M' 'R' 'F' 'L'

/-- The header of a container. -/
def header : Tag := ofChars 'h' 'd' 'r' ' '

/-- The table of contents of a container. -/
def contents : Tag := ofChars 't' 'o' 'c' ' '

/-- A group. -/
def group : Tag := ofChars 'g' 'r' 'p' ' '

/-- A scene. -/
def scene : Tag := ofChars 's' 'c' 'n' ' '

/-- A set. -/
def set : Tag := ofChars 's' 'e' 't' ' '

/-- The fixed fields of a media list. -/
def info : Tag := ofChars 'i' 'n' 'f' 'o'

/-- One reference of a media list. -/
def reference : Tag := ofChars 'm' 'r' 'e' 'f'

/-- Four zero bytes, which stand for a tag that is missing. -/
def blank : Tag := ⟨0, 0, 0, 0⟩

/-- The bytes of a tag. -/
def bytes (tag : Tag) : Bytes :=
  [tag.first, tag.second, tag.third, tag.fourth]

/-- The tag of the first four bytes. -/
def ofBytes? : Bytes → Option Tag
  | first :: second :: third :: fourth :: _ => some ⟨first, second, third, fourth⟩
  | _ => none

/-- The tag with a name of at most four ASCII characters; a shorter one is filled up with spaces. -/
def ofName? (name : String) : Option Tag :=
  if name.toList.all fun c => c.toNat < 0x80 then
    match name.toList with
    | [] => some (ofChars ' ' ' ' ' ' ' ')
    | [a] => some (ofChars a ' ' ' ' ' ')
    | [a, b] => some (ofChars a b ' ' ' ')
    | [a, b, c] => some (ofChars a b c ' ')
    | [a, b, c, d] => some (ofChars a b c d)
    | _ => none
  else none

/-- Whether chunks with this tag hold further chunks. -/
def isForm (tag : Tag) : Bool :=
  tag == form || tag == list

/-- What the root form of a container in a byte order holds. -/
def ofOrder : ByteOrder → Tag
  | .big => rootBig
  | .little => rootLittle

/-- The byte order that a root form declares by what it holds. -/
def order? (tag : Tag) : Option ByteOrder :=
  if tag = rootBig then some .big
  else if tag = rootLittle then some .little
  else none

/-- A byte of a tag as text: a visible character or a space, or else its code. -/
def byteLabel (byte : UInt8) : List Char :=
  if 0x20 ≤ byte && byte ≤ 0x7e then [Char.ofUInt8 byte]
  else '\\' :: 'x' :: Text.hexPadded 2 byte.toNat

/-- A tag as text. -/
def label (tag : Tag) : String :=
  String.ofList (tag.bytes.flatMap byteLabel)

/-- A tag takes four bytes. -/
@[simp]
theorem length_bytes (tag : Tag) : tag.bytes.length = 4 := rfl

end Tag

end StageArchive
