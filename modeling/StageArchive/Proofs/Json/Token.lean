import StageArchive.Json.Printer
import StageArchive.Json.Token
import StageArchive.Proofs.Json.Number
/-!
# The tokens of a printed document

A number ends only with the character after it, so a machine that has read a value may still be
inside a number. `Lexes` says that a machine reads some characters and would finish with some
tokens. `lexes_print` says that a printed document is read as its tokens, whatever blanks the layout
puts between them.
-/

namespace StageArchive.Json

mutual

/-- A document without broken texts whose numbers are natural numbers. -/
def IsPlain : Json → Prop
  | .null | .bool _ | .text _ => True
  | .number literal => ∃ value, literal = .ofNat value
  | .array items => ArePlain items
  | .object members => HavePlain members
  | .broken => False

/-- Items all of which are plain. -/
def ArePlain : List Json → Prop
  | [] => True
  | item :: items => IsPlain item ∧ ArePlain items

/-- Members all of whose values are plain. -/
def HavePlain : List (String × Json) → Prop
  | [] => True
  | (_, value) :: members => IsPlain value ∧ HavePlain members

end

mutual

/-- The tokens of a document. -/
def tokensOf : Json → List Token
  | .null => [.null]
  | .bool value => [.bool value]
  | .number literal => [.number literal]
  | .text content => [.text content]
  | .array [] => [.openBracket, .closeBracket]
  | .array (item :: items) =>
    .openBracket :: (tokensOf item ++ itemTokens items ++ [.closeBracket])
  | .object [] => [.openBrace, .closeBrace]
  | .object ((key, value) :: members) =>
    .openBrace :: .text key :: .colon ::
      (tokensOf value ++ memberTokens members ++ [.closeBrace])
  | .broken => [.null]

/-- The tokens of the items after the first of an array. -/
def itemTokens : List Json → List Token
  | [] => []
  | item :: items => .comma :: (tokensOf item ++ itemTokens items)

/-- The tokens of the members after the first of an object. -/
def memberTokens : List (String × Json) → List Token
  | [] => []
  | (key, value) :: members =>
    .comma :: .text key :: .colon :: (tokensOf value ++ memberTokens members)

end

/-- A layout that puts nothing but blanks between tokens. -/
structure Layout.IsBlank (layout : Layout) : Prop where
  beforeItem : ∀ level, (layout.beforeItem level).all isBlank
  beforeEnd : ∀ level, (layout.beforeEnd level).all isBlank
  afterColon : layout.afterColon.all isBlank

/-- The layout of an item a line puts only blanks between tokens. -/
theorem Layout.isBlank_indented : Layout.indented.IsBlank := by
  have hmargin (level : Nat) : (margin level).all isBlank := by
    rw [margin, List.all_replicate]
    split <;> rfl
  exact ⟨hmargin, hmargin, rfl⟩

/-- A machine reads some characters and is left in a state. -/
def Reaches (start : Lexer) (characters : List Char) (after : Lexer) : Prop :=
  characters.foldlM Lexer.step start = some after

/-- A machine reads some characters and would then finish with some tokens. -/
def Lexes (start : Lexer) (characters : List Char) (tokens : List Token) : Prop :=
  ∃ after, Reaches start characters after ∧ after.finish = some tokens

namespace Reaches

variable {start middle after : Lexer} {first second : List Char}

/-- Reading no characters changes nothing. -/
theorem nil (start : Lexer) : Reaches start [] start := rfl

/-- Characters are read one after another. -/
theorem cons {c : Char} (hstep : start.step c = some middle) (h : Reaches middle first after) :
    Reaches start (c :: first) after := by
  show (start.step c).bind _ = _
  rw [hstep]
  exact h

/-- What is read in two parts is read at once. -/
theorem append (hfirst : Reaches start first middle) (hsecond : Reaches middle second after) :
    Reaches start (first ++ second) after := by
  rw [Reaches, List.foldlM_append, hfirst]
  exact hsecond

/-- Tokens are finished with after what was read before. -/
theorem append_lexes {tokens : List Token} (hfirst : Reaches start first middle)
    (hsecond : Lexes middle second tokens) : Lexes start (first ++ second) tokens := by
  obtain ⟨after, hreaches, hfinish⟩ := hsecond
  exact ⟨after, hfirst.append hreaches, hfinish⟩

/-- Between tokens the machine finishes with the tokens read. -/
theorem lexes {token : Token} {tokens : List Token}
    (h : Reaches start first ⟨.between, token :: tokens⟩) :
    Lexes start first (tokens.reverse ++ [token]) := by
  refine ⟨_, h, ?_⟩
  rw [← List.reverse_cons]
  rfl

end Reaches

namespace Lexes

variable {start middle : Lexer} {first second : List Char} {tokens more : List Token}

/-- A character is read before others. -/
theorem cons {c : Char} (hstep : start.step c = some middle) (h : Lexes middle first tokens) :
    Lexes start (c :: first) tokens := by
  obtain ⟨after, hreaches, hfinish⟩ := h
  exact ⟨after, hreaches.cons hstep, hfinish⟩

/-- What follows is read whether or not the tokens before it end in a number. -/
theorem append (hfirst : Lexes start first tokens)
    (hsecond : ∀ after, after.finish = some tokens → Lexes after second more) :
    Lexes start (first ++ second) more := by
  obtain ⟨after, hreaches, hfinish⟩ := hfirst
  exact hreaches.append_lexes (hsecond after hfinish)

end Lexes

/-- A blank between tokens is skipped. -/
theorem stepBetween_of_isBlank {c : Char} (h : isBlank c) (lexer : Lexer) :
    lexer.stepBetween c = some lexer := by
  unfold Lexer.stepBetween
  rw [if_pos h]

/-- Blanks between tokens are skipped. -/
theorem reaches_blanks {characters : List Char} (h : characters.all isBlank)
    (tokens : List Token) : Reaches ⟨.between, tokens⟩ characters ⟨.between, tokens⟩ := by
  induction characters with
  | nil => exact .nil _
  | cons c characters ih =>
      rw [List.all_cons, Bool.and_eq_true] at h
      exact .cons (stepBetween_of_isBlank h.1 _) (ih h.2)

/-- A character that may stand behind a value. -/
def IsSeparator (c : Char) : Prop :=
  isBlank c ∨ c = ',' ∨ c = ']' ∨ c = '\x7d'

/-- A separator does not go on with a number. -/
theorem step_of_isSeparator {c : Char} (hc : IsSeparator c) {stage : NumberStage}
    (literal : Number) : stage.step literal c = none := by
  have hcases : c = ' ' ∨ c = '\n' ∨ c = '\t' ∨ c = '\r' ∨ c = ',' ∨ c = ']' ∨ c = '\x7d' := by
    rcases hc with hblank | hc
    · simp only [isBlank, Bool.or_eq_true, beq_iff_eq] at hblank
      grind
    · grind
  rcases hcases with rfl | rfl | rfl | rfl | rfl | rfl | rfl <;> cases stage <;> rfl

/-- A separator is read where the tokens before it end. -/
theorem step_of_finish {lexer : Lexer} {tokens : List Token} {c : Char}
    (h : lexer.finish = some tokens) (hc : IsSeparator c) :
    lexer.step c = Lexer.stepBetween ⟨.between, tokens.reverse⟩ c := by
  obtain ⟨mode, before⟩ := lexer
  cases mode with
  | between =>
      obtain rfl := Option.some.inj h
      rw [List.reverse_reverse]
      rfl
  | number stage literal =>
      simp only [Lexer.finish] at h
      split at h
      · rename_i hend
        obtain rfl := Option.some.inj h
        simp only [Lexer.step, step_of_isSeparator hc, if_pos hend, List.reverse_reverse]
        rfl
      · cases h
  | word | text | escape | hex => cases h

/-- Blanks behind a value leave the tokens as they are. -/
theorem lexes_blanks {lexer : Lexer} {tokens : List Token} {characters : List Char}
    (h : lexer.finish = some tokens) (hblank : characters.all isBlank) :
    Lexes lexer characters tokens := by
  cases characters with
  | nil => exact ⟨lexer, .nil lexer, h⟩
  | cons c characters =>
      rw [List.all_cons, Bool.and_eq_true] at hblank
      have hstep := step_of_finish h (.inl hblank.1)
      rw [stepBetween_of_isBlank hblank.1] at hstep
      refine ⟨_, .cons hstep (reaches_blanks hblank.2 _), ?_⟩
      rw [Lexer.finish, List.reverse_reverse]

/-- A colon behind a key is a token. -/
theorem step_colon (tokens : List Token) :
    Lexer.step ⟨.between, tokens⟩ ':' = some ⟨.between, .colon :: tokens⟩ := rfl

/-- A comma behind a value is a token. -/
theorem step_comma {lexer : Lexer} {tokens : List Token} (h : lexer.finish = some tokens) :
    lexer.step ',' = some ⟨.between, .comma :: tokens.reverse⟩ :=
  step_of_finish h (.inr (.inl rfl))

/-- The end of an array behind a value is a token. -/
theorem lexes_closeBracket {lexer : Lexer} {tokens : List Token}
    (h : lexer.finish = some tokens) : Lexes lexer [']'] (tokens ++ [.closeBracket]) := by
  have hstep := step_of_finish h (.inr (.inr (.inl rfl)))
  have hlexes := (Reaches.cons hstep (.nil _)).lexes
  rwa [List.reverse_reverse] at hlexes

/-- The end of an object behind a value is a token. -/
theorem lexes_closeBrace {lexer : Lexer} {tokens : List Token}
    (h : lexer.finish = some tokens) : Lexes lexer ['\x7d'] (tokens ++ [.closeBrace]) := by
  have hstep := step_of_finish h (.inr (.inr (.inr rfl)))
  have hlexes := (Reaches.cons hstep (.nil _)).lexes
  rwa [List.reverse_reverse] at hlexes

section Text

/-- The digit that a hexadecimal character was written for. -/
theorem hexValue?_hexDigit {value : Nat} (h : value < 16) :
    hexValue? (Text.hexDigit value) = some value := by
  have hall : ∀ digit : Fin 16, hexValue? (Text.hexDigit digit.val) = some digit.val := by decide
  exact hall ⟨value, h⟩

/-- A character is written as a short escape, as a control character's code point, or as it is. -/
theorem escapeChar_eq (c : Char) :
    (∃ mark, escapeChar c = ['\\', mark] ∧ mark ≠ 'u' ∧ escaped? mark = some c.toNat) ∨
      (escapeChar c = '\\' :: 'u' :: Text.hexPadded 4 c.toNat ∧ c.toNat < 0x20) ∨
      (escapeChar c = [c] ∧ c ≠ '"' ∧ c ≠ '\\' ∧ 0x20 ≤ c.toNat) := by
  by_cases hshort : c = '"' ∨ c = '\\' ∨ c = '\x08' ∨ c = '\x0c' ∨ c = '\n' ∨ c = '\r' ∨ c = '\t'
  · refine .inl ?_
    rcases hshort with rfl | rfl | rfl | rfl | rfl | rfl | rfl
    all_goals exact ⟨_, rfl, by decide, rfl⟩
  · have hescape : escapeChar c =
        if c.toNat < 0x20 then '\\' :: 'u' :: Text.hexPadded 4 c.toNat else [c] := by
      simp only [not_or] at hshort
      simp only [escapeChar, beq_iff_eq, hshort, if_false]
    refine .inr ?_
    by_cases hcontrol : c.toNat < 0x20
    · rw [if_pos hcontrol] at hescape
      exact .inl ⟨hescape, hcontrol⟩
    · rw [if_neg hcontrol] at hescape
      simp only [not_or] at hshort
      exact .inr ⟨hescape, hshort.1, hshort.2.1, Nat.le_of_not_lt hcontrol⟩

/-- The machine after a hexadecimal digit of an escape. -/
theorem step_hexDigit {digit : Nat} (hdigit : digit < 16) (units : List Nat) (missing value : Nat)
    (tokens : List Token) :
    Lexer.step ⟨.hex units missing value, tokens⟩ (Text.hexDigit digit) =
      some (if missing ≤ 1 then ⟨.text ((value * 16 + digit) :: units), tokens⟩
        else ⟨.hex units (missing - 1) (value * 16 + digit), tokens⟩) := by
  simp only [Lexer.step, hexValue?_hexDigit hdigit, Option.map_some]

/-- A character is read as it is written inside a string. -/
theorem reaches_escapeChar (c : Char) (units : List Nat) (tokens : List Token) :
    Reaches ⟨.text units, tokens⟩ (escapeChar c) ⟨.text (c.toNat :: units), tokens⟩ := by
  rcases escapeChar_eq c with ⟨mark, hescape, hmark, hvalue⟩ | ⟨hescape, hcontrol⟩ |
    ⟨hescape, hquote, hslash, hprintable⟩
  · rw [hescape]
    have hstep : Lexer.step ⟨.escape units, tokens⟩ mark =
        some ⟨.text (c.toNat :: units), tokens⟩ := by
      simp only [Lexer.step, beq_iff_eq, hmark, if_false, hvalue, Option.map_some]
    exact .cons rfl (.cons hstep (.nil _))
  · rw [hescape]
    have hdigit (value : Nat) : value % 16 < 16 := Nat.mod_lt _ (by decide)
    have hvalue : (((0 * 16 + c.toNat / 16 / 16 / 16 % 16) * 16 + c.toNat / 16 / 16 % 16) * 16 +
        c.toNat / 16 % 16) * 16 + c.toNat % 16 = c.toNat := by omega
    have hlast := step_hexDigit (hdigit c.toNat) units 1
      (((0 * 16 + c.toNat / 16 / 16 / 16 % 16) * 16 + c.toNat / 16 / 16 % 16) * 16 +
        c.toNat / 16 % 16) tokens
    rw [hvalue] at hlast
    exact .cons rfl (.cons rfl (.cons (step_hexDigit (hdigit _) units 4 0 tokens)
      (.cons (step_hexDigit (hdigit _) units 3 _ tokens)
        (.cons (step_hexDigit (hdigit _) units 2 _ tokens) (.cons hlast (.nil _))))))
  · rw [hescape]
    have hstep : Lexer.step ⟨.text units, tokens⟩ c =
        some ⟨.text (c.toNat :: units), tokens⟩ := by
      simp only [Lexer.step, beq_iff_eq, hquote, hslash, if_false, Nat.not_lt_of_le hprintable]
    exact .cons hstep (.nil _)

/-- Characters are read as they are written inside a string. -/
theorem reaches_escapeChars (characters : List Char) (units : List Nat) (tokens : List Token) :
    Reaches ⟨.text units, tokens⟩ (characters.flatMap escapeChar)
      ⟨.text ((characters.map Char.toNat).reverse ++ units), tokens⟩ := by
  -- The lexer keeps the characters that it has read in reverse order.
  induction characters generalizing units with
  | nil => exact .nil _
  | cons c characters ih =>
      have hothers := ih (c.toNat :: units)
      rw [List.map_cons, List.reverse_cons, List.append_assoc]
      exact (reaches_escapeChar c units tokens).append hothers

/-- A character is no surrogate. -/
theorem isSurrogate_toNat (c : Char) :
    isLeadingSurrogate c.toNat = false ∧ isTrailingSurrogate c.toNat = false := by
  have hvalid : c.toNat < 0xd800 ∨ 0xdfff < c.toNat ∧ c.toNat < 0x110000 := c.valid
  constructor
  · rw [isLeadingSurrogate, Bool.and_eq_false_iff, decide_eq_false_iff_not,
      decide_eq_false_iff_not]
    omega
  · rw [isTrailingSurrogate, Bool.and_eq_false_iff, decide_eq_false_iff_not,
      decide_eq_false_iff_not]
    omega

/-- The code points of characters spell these characters. -/
theorem spell?_toNat (characters : List Char) :
    spell? (characters.map Char.toNat) = some characters := by
  induction characters with
  | nil => rfl
  | cons c characters ih =>
      obtain ⟨hleading, htrailing⟩ := isSurrogate_toNat c
      cases characters with
      | nil =>
          show (if _ then none else some [Char.ofNat c.toNat]) = _
          rw [hleading, htrailing, Char.ofNat_toNat]
          rfl
      | cons next others =>
          show (if _ then _ else if _ then none else
            (spell? ((next :: others).map Char.toNat)).map (Char.ofNat c.toNat :: ·)) = _
          rw [hleading, htrailing, ih, Char.ofNat_toNat]
          rfl

/-- A printed string is read as its token. -/
theorem reaches_printText (content : String) (tokens : List Token) :
    Reaches ⟨.between, tokens⟩ (printText content) ⟨.between, .text content :: tokens⟩ := by
  have hinside := reaches_escapeChars content.toList [] tokens
  have htoken : textToken ((content.toList.map Char.toNat).reverse ++ []) = .text content := by
    rw [List.append_nil, textToken, List.reverse_reverse, spell?_toNat]
    exact congrArg Token.text String.ofList_toList
  have hclose : Lexer.step ⟨.text ((content.toList.map Char.toNat).reverse ++ []), tokens⟩ '"' =
      some ⟨.between, .text content :: tokens⟩ := by
    rw [← htoken]
    rfl
  exact .cons rfl (hinside.append (.cons hclose (.nil _)))

end Text

section Number

/-- The digit that a character was written for. -/
theorem digit?_digitChar (digit : Digit) : digit? (digitChar digit) = some digit := by
  revert digit
  decide

/-- The first digit of a number. -/
theorem step_firstDigit (digit : Digit) (tokens : List Token) :
    Lexer.step ⟨.between, tokens⟩ (digitChar digit) =
      some ⟨.number (if digit == 0 then .zero else .whole) ⟨false, [digit], none, none⟩,
        tokens⟩ := by
  match digit with
  | 0 => rfl
  | 1 => rfl
  | 2 => rfl
  | 3 => rfl
  | 4 => rfl
  | 5 => rfl
  | 6 => rfl
  | 7 => rfl
  | 8 => rfl
  | 9 => rfl

/-- Further digits of a number. -/
theorem reaches_digits (digits before : List Digit) (tokens : List Token) :
    Reaches ⟨.number .whole ⟨false, before, none, none⟩, tokens⟩ (digits.map digitChar)
      ⟨.number .whole ⟨false, before ++ digits, none, none⟩, tokens⟩ := by
  induction digits generalizing before with
  | nil =>
      rw [List.append_nil]
      exact .nil _
  | cons digit digits ih =>
      have hothers := ih (before ++ [digit])
      rw [List.append_assoc] at hothers
      have hstep : Lexer.step ⟨.number .whole ⟨false, before, none, none⟩, tokens⟩
          (digitChar digit) =
            some ⟨.number .whole ⟨false, before ++ [digit], none, none⟩, tokens⟩ := by
        simp only [Lexer.step, NumberStage.step, digit?_digitChar]
      exact .cons hstep hothers

/-- A printed natural number is read as its token. -/
theorem lexes_printNumber (value : Nat) (tokens : List Token) :
    Lexes ⟨.between, tokens⟩ (printNumber (.ofNat value))
      (tokens.reverse ++ [.number (.ofNat value)]) := by
  have hprint : printNumber (.ofNat value) = (digitsOf value).map digitChar := by
    simp [printNumber, Number.ofNat]
  have hfinish (stage : NumberStage) (hend : stage.canEnd) :
      Lexer.finish ⟨.number stage (.ofNat value), tokens⟩ =
        some (tokens.reverse ++ [.number (.ofNat value)]) := by
    simp only [Lexer.finish, if_pos hend, Lexer.push, List.reverse_cons]
  rw [hprint]
  rcases digitsOf_eq value with hzero | ⟨digit, digits, hdigits, hfirst⟩
  · have hliteral : Number.ofNat value = ⟨false, [0], none, none⟩ := by
      rw [Number.ofNat, hzero]
    refine ⟨_, ?_, hfinish .zero rfl⟩
    rw [hzero, hliteral]
    exact .cons (step_firstDigit 0 tokens) (.nil _)
  · have hliteral : Number.ofNat value = ⟨false, [digit] ++ digits, none, none⟩ := by
      rw [Number.ofNat, hdigits]
      rfl
    have hstep := step_firstDigit digit tokens
    rw [if_neg (by simpa using hfirst)] at hstep
    refine ⟨_, ?_, hfinish .whole rfl⟩
    rw [hdigits, hliteral]
    exact .cons hstep (reaches_digits digits [digit] tokens)

end Number

section Document

variable {layout : Layout} {lexer : Lexer} {characters : List Char} {tokens : List Token}

/-- The key of a member is read in front of the value, with the blanks around it. -/
theorem lexes_key (hlayout : layout.IsBlank) (level : Nat) (key : String) {before : List Token}
    (h : Lexes ⟨.between, .colon :: .text key :: before⟩ characters tokens) :
    Lexes ⟨.between, before⟩
      (layout.beforeItem level ++ (printText key ++ ':' :: (layout.afterColon ++ characters)))
      tokens :=
  (reaches_blanks (hlayout.beforeItem level) before).append_lexes <|
    (reaches_printText key before).append_lexes <|
      ((reaches_blanks hlayout.afterColon _).append_lexes h).cons (step_colon _)

/-- The end of an array is read behind its items. -/
theorem Lexes.closeBracket (hlayout : layout.IsBlank) (level : Nat)
    (h : Lexes lexer characters tokens) :
    Lexes lexer (characters ++ layout.beforeEnd level ++ [']']) (tokens ++ [.closeBracket]) := by
  have hblanks := h.append fun _ hfinish => lexes_blanks hfinish (hlayout.beforeEnd level)
  exact hblanks.append fun _ hfinish => lexes_closeBracket hfinish

/-- The end of an object is read behind its members. -/
theorem Lexes.closeBrace (hlayout : layout.IsBlank) (level : Nat)
    (h : Lexes lexer characters tokens) :
    Lexes lexer (characters ++ layout.beforeEnd level ++ ['\x7d']) (tokens ++ [.closeBrace]) := by
  have hblanks := h.append fun _ hfinish => lexes_blanks hfinish (hlayout.beforeEnd level)
  exact hblanks.append fun _ hfinish => lexes_closeBrace hfinish

-- What is behind the first item or member is read from wherever the first one leaves the lexer, which
-- need not be between tokens: a number ends only where something follows it.
mutual

/-- A printed document is read as its tokens. -/
theorem lexes_print (hlayout : layout.IsBlank) (level : Nat) (json : Json) (h : IsPlain json)
    (tokens : List Token) :
    Lexes ⟨.between, tokens⟩ (print layout level json) (tokens.reverse ++ tokensOf json) := by
  cases json with
  | null => exact Reaches.lexes rfl
  | bool value =>
      cases value with
      | false | true => exact Reaches.lexes rfl
  | number literal =>
      obtain ⟨value, rfl⟩ := h
      exact lexes_printNumber value tokens
  | text content => exact (reaches_printText content tokens).lexes
  | array items =>
      cases items with
      | nil =>
          refine ⟨⟨.between, .closeBracket :: .openBracket :: tokens⟩, rfl, ?_⟩
          simp [tokensOf, Lexer.finish]
      | cons item items =>
          obtain ⟨hitem, hitems⟩ := h
          have hfirst := (reaches_blanks (hlayout.beforeItem (level + 1)) _).append_lexes
            (lexes_print hlayout (level + 1) item hitem (.openBracket :: tokens))
          have hothers := hfirst.append fun _ hfinish =>
            lexes_printItems hlayout (level + 1) items hitems hfinish
          have hopen : Lexer.step ⟨.between, tokens⟩ '[' =
              some ⟨.between, .openBracket :: tokens⟩ := rfl
          simpa [print, tokensOf] using (hothers.closeBracket hlayout level).cons hopen
  | object members =>
      cases members with
      | nil =>
          refine ⟨⟨.between, .closeBrace :: .openBrace :: tokens⟩, rfl, ?_⟩
          simp [tokensOf, Lexer.finish]
      | cons member members =>
          obtain ⟨key, value⟩ := member
          obtain ⟨hvalue, hmembers⟩ := h
          have hfirst := lexes_key hlayout (level + 1) key
            (lexes_print hlayout (level + 1) value hvalue
              (.colon :: .text key :: .openBrace :: tokens))
          have hothers := hfirst.append fun _ hfinish =>
            lexes_printMembers hlayout (level + 1) members hmembers hfinish
          have hopen : Lexer.step ⟨.between, tokens⟩ '\x7b' =
              some ⟨.between, .openBrace :: tokens⟩ := rfl
          simpa [print, tokensOf] using (hothers.closeBrace hlayout level).cons hopen
  | broken => exact h.elim

/-- The items after the first are read as their tokens. -/
theorem lexes_printItems (hlayout : layout.IsBlank) (level : Nat) (items : List Json)
    (h : ArePlain items) {lexer : Lexer} {tokens : List Token}
    (hfinish : lexer.finish = some tokens) :
    Lexes lexer (printItems layout level items) (tokens ++ itemTokens items) := by
  cases items with
  | nil =>
      rw [itemTokens, List.append_nil]
      exact ⟨lexer, .nil lexer, hfinish⟩
  | cons item items =>
      obtain ⟨hitem, hitems⟩ := h
      have hfirst := (reaches_blanks (hlayout.beforeItem level) _).append_lexes
        (lexes_print hlayout level item hitem (.comma :: tokens.reverse))
      have hall := hfirst.append fun _ hfinish =>
        lexes_printItems hlayout level items hitems hfinish
      simpa [printItems, itemTokens] using hall.cons (step_comma hfinish)

/-- The members after the first are read as their tokens. -/
theorem lexes_printMembers (hlayout : layout.IsBlank) (level : Nat)
    (members : List (String × Json)) (h : HavePlain members) {lexer : Lexer} {tokens : List Token}
    (hfinish : lexer.finish = some tokens) :
    Lexes lexer (printMembers layout level members) (tokens ++ memberTokens members) := by
  cases members with
  | nil =>
      rw [memberTokens, List.append_nil]
      exact ⟨lexer, .nil lexer, hfinish⟩
  | cons member members =>
      obtain ⟨key, value⟩ := member
      obtain ⟨hvalue, hmembers⟩ := h
      have hfirst := lexes_key hlayout level key
        (lexes_print hlayout level value hvalue (.colon :: .text key :: .comma :: tokens.reverse))
      have hall := hfirst.append fun _ hfinish =>
        lexes_printMembers hlayout level members hmembers hfinish
      simpa [printMembers, memberTokens] using hall.cons (step_comma hfinish)

end

/-- A printed document is read as its tokens and nothing else. -/
theorem tokens?_print (hlayout : layout.IsBlank) (level : Nat) {json : Json} (h : IsPlain json) :
    tokens? (print layout level json) = some (tokensOf json) := by
  obtain ⟨after, hreaches, hfinish⟩ := lexes_print hlayout level json h []
  rw [tokens?, show List.foldlM Lexer.step ⟨.between, []⟩ _ = _ from hreaches]
  exact hfinish

end Document

end StageArchive.Json
