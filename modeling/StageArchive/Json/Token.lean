import StageArchive.Json.Value
/-!
# Lexical structure of JSON

The characters of a document are read one at a time by a machine that is either between tokens or
inside a word, a number or a string. Nothing outside the strict grammar passes: no leading zero, no
bare point, no raw control character inside a string, and only four blank characters between tokens.
-/

namespace StageArchive.Json

/-- A lexical unit. A string that does not spell Unicode text is `brokenText`. -/
inductive Token where
  | openBrace
  | closeBrace
  | openBracket
  | closeBracket
  | comma
  | colon
  | null
  | bool (value : Bool)
  | number (literal : Number)
  | text (content : String)
  | brokenText
  deriving DecidableEq, Repr

/-- Where the machine stands inside a number. -/
inductive NumberStage where
  /-- After the sign; a digit must follow. -/
  | sign
  /-- After a leading zero; no digit may follow. -/
  | zero
  /-- Among the digits before the point. -/
  | whole
  /-- After the point; a digit must follow. -/
  | point
  /-- Among the digits after the point. -/
  | fraction
  /-- After the exponent mark; a sign or a digit must follow. -/
  | mark
  /-- After the sign of the exponent; a digit must follow. -/
  | exponentSign
  /-- Among the digits of the exponent. -/
  | exponent
  deriving DecidableEq, Repr

/-- A number may end at this stage. -/
def NumberStage.canEnd : NumberStage → Bool
  | .zero | .whole | .fraction | .exponent => true
  | .sign | .point | .mark | .exponentSign => false

/-- What the machine is inside of. The units of a string are code points, and surrogates that an
escape spells, in reverse order. -/
inductive Mode where
  | between
  | word (remaining : List Char) (token : Token)
  | number (stage : NumberStage) (literal : Number)
  | text (units : List Nat)
  | escape (units : List Nat)
  | hex (units : List Nat) (missing : Nat) (value : Nat)
  deriving DecidableEq, Repr

/-- The machine's state: its mode and the tokens read, the last one first. -/
structure Lexer where
  mode : Mode
  tokens : List Token
  deriving DecidableEq, Repr

/-- The value of a decimal digit. -/
def digit? (c : Char) : Option Digit :=
  if '0' ≤ c && c ≤ '9' then some (Fin.ofNat 10 (c.toNat - '0'.toNat)) else none

/-- The value of a hexadecimal digit of either case. -/
def hexValue? (c : Char) : Option Nat :=
  if '0' ≤ c && c ≤ '9' then some (c.toNat - '0'.toNat)
  else if 'a' ≤ c && c ≤ 'f' then some (c.toNat - 'a'.toNat + 10)
  else if 'A' ≤ c && c ≤ 'F' then some (c.toNat - 'A'.toNat + 10)
  else none

/-- A blank that may stand between tokens. -/
def isBlank (c : Char) : Bool :=
  c == ' ' || c == '\n' || c == '\t' || c == '\r'

/-- The first half of a surrogate pair. -/
def isLeadingSurrogate (unit : Nat) : Bool :=
  0xd800 ≤ unit && unit ≤ 0xdbff

/-- The second half of a surrogate pair. -/
def isTrailingSurrogate (unit : Nat) : Bool :=
  0xdc00 ≤ unit && unit ≤ 0xdfff

/-- The characters that units spell; none when a surrogate has no partner. -/
def spell? : List Nat → Option (List Char)
  | [] => some []
  | [unit] =>
    if isLeadingSurrogate unit || isTrailingSurrogate unit then none else some [Char.ofNat unit]
  | unit :: next :: rest =>
    if isLeadingSurrogate unit then
      if isTrailingSurrogate next then
        let code := 0x10000 + (unit - 0xd800) * 0x400 + (next - 0xdc00)
        (spell? rest).map (Char.ofNat code :: ·)
      else none
    else if isTrailingSurrogate unit then none
    else (spell? (next :: rest)).map (Char.ofNat unit :: ·)

/-- The token of a finished string. -/
def textToken (units : List Nat) : Token :=
  match spell? units.reverse with
  | some content => .text (String.ofList content)
  | none => .brokenText

/-- The character that a two-character escape stands for. -/
def escaped? (c : Char) : Option Nat :=
  match c with
  | '"' => some 0x22
  | '\\' => some 0x5c
  | '/' => some 0x2f
  | 'b' => some 0x08
  | 'f' => some 0x0c
  | 'n' => some 0x0a
  | 'r' => some 0x0d
  | 't' => some 0x09
  | _ => none

/-- A number literal with one more digit of its exponent. -/
def Number.pushExponent (number : Number) (digit : Digit) : Number :=
  { number with
    exponent := number.exponent.map fun (negative, digits) => (negative, digits ++ [digit]) }

/-- The next stage of a number and its literal, when the character continues it. -/
def NumberStage.step (stage : NumberStage) (number : Number) (c : Char) :
    Option (NumberStage × Number) :=
  match stage, digit? c with
  | .sign, some digit =>
    some (if digit == 0 then .zero else .whole, { number with whole := [digit] })
  | .whole, some digit => some (.whole, { number with whole := number.whole ++ [digit] })
  | .point, some digit => some (.fraction, { number with fraction := some [digit] })
  | .fraction, some digit =>
    some (.fraction, { number with fraction := number.fraction.map (· ++ [digit]) })
  | .mark, some digit | .exponentSign, some digit | .exponent, some digit =>
    some (.exponent, number.pushExponent digit)
  | .mark, none =>
    if c == '+' then some (.exponentSign, number)
    else if c == '-' then some (.exponentSign, { number with exponent := some (true, []) })
    else none
  | .zero, none | .whole, none =>
    if c == '.' then some (.point, number)
    else if c == 'e' || c == 'E' then some (.mark, { number with exponent := some (false, []) })
    else none
  | .fraction, none =>
    if c == 'e' || c == 'E' then some (.mark, { number with exponent := some (false, []) })
    else none
  | _, _ => none

namespace Lexer

/-- The machine after a whole token. -/
def push (lexer : Lexer) (token : Token) : Lexer :=
  ⟨.between, token :: lexer.tokens⟩

/-- One character between tokens. -/
def stepBetween (lexer : Lexer) (c : Char) : Option Lexer :=
  if isBlank c then some lexer
  else
    match c with
    | '\x7b' => some (lexer.push .openBrace)
    | '\x7d' => some (lexer.push .closeBrace)
    | '[' => some (lexer.push .openBracket)
    | ']' => some (lexer.push .closeBracket)
    | ',' => some (lexer.push .comma)
    | ':' => some (lexer.push .colon)
    | '"' => some { lexer with mode := .text [] }
    | 'n' => some { lexer with mode := .word ['u', 'l', 'l'] .null }
    | 't' => some { lexer with mode := .word ['r', 'u', 'e'] (.bool true) }
    | 'f' => some { lexer with mode := .word ['a', 'l', 's', 'e'] (.bool false) }
    | '-' => some { lexer with mode := .number .sign ⟨true, [], none, none⟩ }
    | _ =>
      (NumberStage.sign.step ⟨false, [], none, none⟩ c).map fun (stage, literal) =>
        { lexer with mode := .number stage literal }

/-- One character. A character that does not continue a number is read after it. -/
def step (lexer : Lexer) (c : Char) : Option Lexer :=
  match lexer.mode with
  | .between => lexer.stepBetween c
  | .word [] token => (lexer.push token).stepBetween c
  | .word (expected :: remaining) token =>
    if c != expected then none
    else if remaining.isEmpty then some (lexer.push token)
    else some { lexer with mode := .word remaining token }
  | .number stage literal =>
    match stage.step literal c with
    | some (stage, literal) => some { lexer with mode := .number stage literal }
    | none => if stage.canEnd then (lexer.push (.number literal)).stepBetween c else none
  | .text units =>
    if c == '"' then some (lexer.push (textToken units))
    else if c == '\\' then some { lexer with mode := .escape units }
    else if c.toNat < 0x20 then none
    else some { lexer with mode := .text (c.toNat :: units) }
  | .escape units =>
    if c == 'u' then some { lexer with mode := .hex units 4 0 }
    else (escaped? c).map fun unit => { lexer with mode := .text (unit :: units) }
  | .hex units missing value =>
    (hexValue? c).map fun digit =>
      let value := value * 16 + digit
      if missing ≤ 1 then { lexer with mode := .text (value :: units) }
      else { lexer with mode := .hex units (missing - 1) value }

/-- The tokens once the text has ended; only a number may end with it. -/
def finish (lexer : Lexer) : Option (List Token) :=
  match lexer.mode with
  | .between => some lexer.tokens.reverse
  | .number stage literal =>
    if stage.canEnd then some (lexer.push (.number literal)).tokens.reverse else none
  | _ => none

end Lexer

/-- The tokens of a document. -/
def tokens? (characters : List Char) : Option (List Token) :=
  (characters.foldlM Lexer.step ⟨.between, []⟩).bind Lexer.finish

end StageArchive.Json
