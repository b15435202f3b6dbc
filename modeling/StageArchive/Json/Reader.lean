import StageArchive.Json.Token
/-!
# Reading JSON

The tokens of a document are read one at a time by a machine whose stack holds the containers that
are open. Exactly one value may stand at the top; commas separate and never trail. How deep a
document may nest is not limited here but where its shape is read.
-/

namespace StageArchive.Json

/-- A key, or none for one that does not spell Unicode text. -/
abbrev Key := Option String

/-- A container that is open around the value being read, with what precedes the value in reverse
order. -/
inductive Frame where
  | item (before : List Json)
  | member (before : List (Key × Json)) (key : Key)

/-- What the machine stands before: a value, a key, the colon after a key, or what may follow a
value. A container that has just been opened may also be closed. -/
inductive Phase where
  | value (fresh : Bool)
  | key (before : List (Key × Json)) (fresh : Bool)
  | colon (before : List (Key × Json)) (key : Key)
  | after (value : Json)

/-- The machine's state: the open containers, the innermost first, and what comes next. -/
structure Reader where
  frames : List Frame
  phase : Phase

/-- The object with the given members; without a value when a key has none. -/
def objectOf (members : List (Key × Json)) : Json :=
  match members.mapM fun (key, value) => key.map fun name => (name, value) with
  | some named => .object named
  | none => .broken

namespace Reader

/-- The machine before a document. -/
def start : Reader :=
  ⟨[], .value false⟩

/-- One token where a value is due. -/
def stepValue (reader : Reader) (fresh : Bool) (token : Token) : Option Reader :=
  match token with
  | .null => some { reader with phase := .after .null }
  | .bool value => some { reader with phase := .after (.bool value) }
  | .number literal => some { reader with phase := .after (.number literal) }
  | .text content => some { reader with phase := .after (.text content) }
  | .brokenText => some { reader with phase := .after .broken }
  | .openBracket => some ⟨.item [] :: reader.frames, .value true⟩
  | .openBrace => some { reader with phase := .key [] true }
  | .closeBracket =>
    match fresh, reader.frames with
    | true, .item [] :: frames => some ⟨frames, .after (.array [])⟩
    | _, _ => none
  | _ => none

/-- One token where a key is due. -/
def stepKey (reader : Reader) (before : List (Key × Json)) (fresh : Bool) (token : Token) :
    Option Reader :=
  match token with
  | .text content => some { reader with phase := .colon before (some content) }
  | .brokenText => some { reader with phase := .colon before none }
  | .closeBrace => if fresh then some { reader with phase := .after (.object []) } else none
  | _ => none

/-- One token after a value. -/
def stepAfter (reader : Reader) (value : Json) (token : Token) : Option Reader :=
  match reader.frames, token with
  | .item before :: frames, .comma => some ⟨.item (value :: before) :: frames, .value false⟩
  | .item before :: frames, .closeBracket =>
    some ⟨frames, .after (.array (value :: before).reverse)⟩
  | .member before key :: frames, .comma => some ⟨frames, .key ((key, value) :: before) false⟩
  | .member before key :: frames, .closeBrace =>
    some ⟨frames, .after (objectOf ((key, value) :: before).reverse)⟩
  | _, _ => none

/-- One token. -/
def step (reader : Reader) (token : Token) : Option Reader :=
  match reader.phase with
  | .value fresh => reader.stepValue fresh token
  | .key before fresh => reader.stepKey before fresh token
  | .colon before key =>
    if token = .colon then some ⟨.member before key :: reader.frames, .value false⟩ else none
  | .after value => reader.stepAfter value token

/-- The document, once a value is complete and nothing is open. -/
def finish (reader : Reader) : Option Json :=
  match reader.frames, reader.phase with
  | [], .after value => some value
  | _, _ => none

end Reader

/-- The document that tokens form. -/
def ofTokens? (tokens : List Token) : Option Json :=
  (tokens.foldlM Reader.step Reader.start).bind Reader.finish

/-- The document that a text spells. -/
def parse? (text : String) : Option Json :=
  (tokens? text.toList).bind ofTokens?

end StageArchive.Json
