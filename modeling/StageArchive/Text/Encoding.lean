import StageArchive.ByteOrder
/-!
# Text as bytes

Names and tags are stored as UTF-8. Not every run of bytes is text, so reading may refuse.
-/

namespace StageArchive.Text

/-- The UTF-8 bytes of a text. -/
def utf8 (text : String) : Bytes :=
  text.toUTF8.data.toList

/-- The text with the given UTF-8 bytes, if there is one. -/
def ofUtf8? (bytes : Bytes) : Option String :=
  String.fromUTF8? ⟨bytes.toArray⟩

end StageArchive.Text
