import StageArchive.Json.Value
import StageArchive.Text.Quoted
/-!
# Writing JSON

Two layouts: one without any blanks, and one with a line for each item, indented by two spaces a
level. Strings are escaped only where the grammar asks for it, so text outside ASCII stays as it
is.
-/

namespace StageArchive.Json

/-- How a character is written inside a string: short escapes where there are some, and a code
point for any other control character. -/
def escapeChar (c : Char) : List Char :=
  if c == '"' then ['\\', '"']
  else if c == '\\' then ['\\', '\\']
  else if c == '\x08' then ['\\', 'b']
  else if c == '\x0c' then ['\\', 'f']
  else if c == '\n' then ['\\', 'n']
  else if c == '\r' then ['\\', 'r']
  else if c == '\t' then ['\\', 't']
  else if c.toNat < 0x20 then '\\' :: 'u' :: Text.hexPadded 4 c.toNat
  else [c]

/-- A string between double quotes. -/
def printText (content : String) : List Char :=
  '"' :: (content.toList.flatMap escapeChar ++ ['"'])

/-- The character of a decimal digit. -/
def digitChar (digit : Digit) : Char :=
  Char.ofNat ('0'.toNat + digit.val)

/-- A number as its literal spells it. An exponent always has a sign. -/
def printNumber (number : Number) : List Char :=
  (if number.negative then ['-'] else []) ++ number.whole.map digitChar ++
    (match number.fraction with
      | none => []
      | some digits => '.' :: digits.map digitChar) ++
    (match number.exponent with
      | none => []
      | some (negative, digits) =>
        'e' :: (if negative then '-' else '+') :: digits.map digitChar)

/-- Spaces for a level of nesting. -/
def margin (level : Nat) : List Char :=
  List.replicate (2 * level) ' '

/-- How containers are laid out: what precedes an item at a level, what precedes the end of a
container that has items, and what follows the colon of a member. -/
structure Layout where
  beforeItem : Nat → List Char
  beforeEnd : Nat → List Char
  afterColon : List Char

/-- Everything on one line, without blanks. -/
def Layout.compact : Layout :=
  ⟨fun _ => [], fun _ => [], []⟩

/-- An item a line. -/
def Layout.indented : Layout :=
  ⟨fun level => '\n' :: margin level, fun level => '\n' :: margin level, [' ']⟩

mutual

/-- A document at a level of nesting. A value that spells nothing is written as null. -/
def print (layout : Layout) (level : Nat) : Json → List Char
  | .null => "null".toList
  | .bool true => "true".toList
  | .bool false => "false".toList
  | .number literal => printNumber literal
  | .text content => printText content
  | .array [] => ['[', ']']
  | .array (item :: items) =>
    '[' :: (layout.beforeItem (level + 1) ++ print layout (level + 1) item ++
      printItems layout (level + 1) items ++ layout.beforeEnd level ++ [']'])
  | .object [] => ['\x7b', '\x7d']
  | .object ((key, value) :: members) =>
    '\x7b' :: (layout.beforeItem (level + 1) ++ printText key ++ ':' :: layout.afterColon ++
      print layout (level + 1) value ++ printMembers layout (level + 1) members ++
      layout.beforeEnd level ++ ['\x7d'])
  | .broken => "null".toList

/-- The items after the first of an array. -/
def printItems (layout : Layout) (level : Nat) : List Json → List Char
  | [] => []
  | item :: items =>
    ',' :: (layout.beforeItem level ++ print layout level item ++ printItems layout level items)

/-- The members after the first of an object. -/
def printMembers (layout : Layout) (level : Nat) : List (String × Json) → List Char
  | [] => []
  | (key, value) :: members =>
    ',' :: (layout.beforeItem level ++ printText key ++ ':' :: layout.afterColon ++
      print layout level value ++ printMembers layout level members)

end

/-- A document on one line. -/
def compact (json : Json) : String :=
  String.ofList (print .compact 0 json)

/-- A document with an item a line. -/
def pretty (json : Json) : String :=
  String.ofList (print .indented 0 json)

end StageArchive.Json
