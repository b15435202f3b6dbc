import StageArchive.Text.Printable
/-!
# Quoted text

Names appear in messages and listings between double quotes. A quote, a backslash and the four
usual control characters have two-character escapes; any other character that cannot be shown, or
that would attach to the character before it, is written as its code point.
-/

namespace StageArchive.Text

/-- The lower-case hexadecimal digit of a number below sixteen. -/
def hexDigit (value : Nat) : Char :=
  if value < 10 then Char.ofNat ('0'.toNat + value) else Char.ofNat ('a'.toNat + (value - 10))

/-- Exactly `width` hexadecimal digits of a number, the most significant first. -/
def hexPadded : (width : Nat) → (value : Nat) → List Char
  | 0, _ => []
  | width + 1, value => hexPadded width (value / 16) ++ [hexDigit (value % 16)]

/-- The number of hexadecimal digits of a code point. -/
def hexWidth (value : Nat) : Nat :=
  value.log2 / 4 + 1

/-- The hexadecimal digits of a number without leading zeros. -/
def hex (value : Nat) : List Char :=
  hexPadded (hexWidth value) value

/-- How a character is written between double quotes. -/
def quoteChar (c : Char) : List Char :=
  if c == '\x00' then ['\\', '0']
  else if c == '\t' then ['\\', 't']
  else if c == '\n' then ['\\', 'n']
  else if c == '\r' then ['\\', 'r']
  else if c == '"' then ['\\', '"']
  else if c == '\\' then ['\\', '\\']
  else if isExtending c || !isPrintable c then
    ['\\', 'u', '\x7b'] ++ hex c.toNat ++ ['\x7d']
  else [c]

/-- A text between double quotes. -/
def quote (text : String) : String :=
  String.ofList ('"' :: (text.toList.flatMap quoteChar ++ ['"']))

/-- A list of texts, each quoted, between brackets. -/
def quoteList (texts : List String) : String :=
  "[" ++ ", ".intercalate (texts.map quote) ++ "]"

end StageArchive.Text
