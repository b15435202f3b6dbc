import StageArchive.CommandLine.Invocation
/-!
# Reading arguments

The first word names the command. After it, options are given by long names, some by a letter too,
and take a value: the rest of the same argument or the argument that follows. One further word is
the file to work on. After two dashes alone everything is a word. A value is looked at only when the
next argument that is understood has been read, so a fault of an unknown argument comes before a
fault of the value before it.
-/

namespace StageArchive

/-- What is wrong with the arguments, or that they ask for help. -/
inductive UsageFault where
  | missingRequiredArgument
  | unknownArgument
  | invalidValue
  | valueValidation
  | argumentConflict
  | tooManyValues
  | invalidSubcommand
  | missingSubcommand
  | displayHelp
  | displayHelpOnMissingArgument
  deriving DecidableEq, Repr

/-- Something an argument gives a value to. -/
inductive Parameter where
  /-- The file to work on. -/
  | file
  | outputDirectory
  | output
  | byteOrder
  | scalar
  | onMissing
  | timestamp
  | assetRoot
  | kind
  | symbols
  | colour
  deriving DecidableEq, Repr

/-- The options of a command. -/
inductive Command where
  | compile
  | assemble
  | dump
  deriving DecidableEq, Repr

namespace Command

/-- The command with the given name. -/
def ofName? : String → Option Command
  | "compile" => some .compile
  | "assemble" => some .assemble
  | "dump" => some .dump
  | _ => none

/-- The options that take a value, by their long names. -/
def options : Command → List (String × Parameter)
  | .compile =>
    [("out-dir", .outputDirectory), ("byte-order", .byteOrder), ("scalar", .scalar),
      ("on-missing", .onMissing), ("timestamp", .timestamp), ("asset-root", .assetRoot)]
  | .assemble => [("output", .output), ("on-missing", .onMissing), ("timestamp", .timestamp)]
  | .dump =>
    [("kind", .kind), ("symbols", .symbols), ("byte-order", .byteOrder), ("color", .colour)]

/-- The option with a long name. -/
def option? (command : Command) (name : String) : Option Parameter :=
  command.options.lookup name

/-- The option with a letter. -/
def letter? (command : Command) (letter : Char) : Option Parameter :=
  match command, letter with
  | .compile, 'o' => some .outputDirectory
  | .assemble, 'o' => some .output
  | _, _ => none

end Command

/-- An argument before it is understood. -/
inductive Argument where
  | word (text : String)
  /-- Two dashes alone. -/
  | divider
  | long (name : String) (value : Option String)
  | letters (letters : List Char)
  deriving DecidableEq, Repr

/-- Splits an argument by its dashes. One dash alone is a word. -/
def Argument.ofText (text : String) : Argument :=
  match text.toList with
  | ['-', '-'] => .divider
  | '-' :: '-' :: rest =>
    let name := String.ofList (rest.takeWhile (· != '='))
    match rest.dropWhile (· != '=') with
    | [] => .long name none
    | _ :: value => .long name (some (String.ofList value))
  | '-' :: first :: others => .letters (first :: others)
  | _ => .word text

/-- A number of seconds: decimal digits after an optional sign, within 32 bits. -/
def timestamp? (text : String) : Option UInt32 :=
  let (negative, digits) :=
    match text.toList with
    | '-' :: digits => (true, digits)
    | '+' :: digits => (false, digits)
    | digits => (false, digits)
  let value := digits.foldl (fun value digit => value * 10 + (digit.toNat - '0'.toNat)) 0
  if digits.isEmpty || !digits.all Char.isDigit || 2 ^ 32 ≤ value || (negative && value != 0) then
    none
  else some (UInt32.ofNat value)

/-- What is wrong with the value of a parameter. -/
def Parameter.valueFault? (parameter : Parameter) (value : String) : Option UsageFault :=
  let among (names : List String) := if names.contains value then none else some .invalidValue
  match parameter with
  | .file | .outputDirectory | .output | .assetRoot | .symbols =>
    if value.isEmpty then some .invalidValue else none
  | .byteOrder => among ["big", "little", "be", "le"]
  | .scalar => among ["float", "fixed16", "fixed20"]
  | .onMissing => among ["abort", "skip"]
  | .kind => among ["grp", "scn", "set"]
  | .colour => among ["auto", "always", "never"]
  | .timestamp => if (timestamp? value).isSome then none else some .valueValidation

/-- What has been read of a command's arguments. -/
structure ArgumentState where
  verbose : Bool
  values : List (Parameter × String)
  /-- A parameter whose value, if any, has not been looked at. -/
  pending : Option (Parameter × Option String)
  /-- Whether the word for the file has been read. -/
  hasFile : Bool
  deriving DecidableEq, Repr

namespace ArgumentState

/-- Nothing read. -/
def start : ArgumentState :=
  ⟨false, [], none, false⟩

/-- Takes the value of a parameter, which may have only one. -/
def commit (state : ArgumentState) (parameter : Parameter) (value : String) :
    Except UsageFault ArgumentState :=
  if (state.values.lookup parameter).isSome then .error .argumentConflict
  else
    match parameter.valueFault? value with
    | some fault => .error fault
    | none => .ok { state with values := (parameter, value) :: state.values }

/-- Looks at the value that is pending; a parameter without one is at fault. -/
def settle (state : ArgumentState) : Except UsageFault ArgumentState :=
  match state.pending with
  | none => .ok state
  | some (_, none) => .error .invalidValue
  | some (parameter, some value) => { state with pending := none }.commit parameter value

/-- Reads an option, with its value when that is part of the same argument. -/
def takeOption (state : ArgumentState) (parameter : Parameter) (value : Option String) :
    Except UsageFault ArgumentState := do
  let state ← state.settle
  match value with
  | none => pure { state with pending := some (parameter, none) }
  | some value => state.commit parameter value

/-- Reads the flag for more output, which may stand once. -/
def takeVerbose (state : ArgumentState) : Except UsageFault ArgumentState := do
  let state ← state.settle
  if state.verbose then throw .argumentConflict else pure { state with verbose := true }

/-- Asks for help. -/
def takeHelp (state : ArgumentState) : Except UsageFault ArgumentState := do
  let _ ← state.settle
  throw .displayHelp

/-- Reads a flag by its long name; a flag takes no value. -/
def takeFlag (flag : Except UsageFault ArgumentState) (value : Option String) :
    Except UsageFault ArgumentState :=
  if value.isSome then .error .tooManyValues else flag

/-- Reads an argument with a long name. -/
def takeLong (state : ArgumentState) (command : Command) (name : String) (value : Option String) :
    Except UsageFault ArgumentState :=
  match command.option? name with
  | some parameter => state.takeOption parameter value
  | none =>
    if name = "verbose" then takeFlag state.takeVerbose value
    else if name = "help" then takeFlag state.takeHelp value
    else .error .unknownArgument

/-- The value that follows a letter in the same argument, with or without an equals sign. -/
def attachedValue : List Char → Option String
  | [] => none
  | '=' :: value => some (String.ofList value)
  | value => some (String.ofList value)

/-- Reads the letters of an argument. -/
def takeLetters (state : ArgumentState) (command : Command) :
    List Char → Except UsageFault ArgumentState
  | [] => .ok state
  | letter :: letters =>
    match command.letter? letter with
    | some parameter => state.takeOption parameter (attachedValue letters)
    | none =>
      if letter = 'v' then do
        let state ← state.takeVerbose
        state.takeLetters command letters
      else if letter = 'h' then state.takeHelp
      else .error .unknownArgument

/-- Reads a word that is not the value of an option. -/
def takeWord (state : ArgumentState) (text : String) : Except UsageFault ArgumentState :=
  if state.hasFile then .error .unknownArgument
  else do
    let state ← state.settle
    pure { state with pending := some (.file, some text), hasFile := true }

/-- Reads one argument. -/
def take (state : ArgumentState) (command : Command) (text : String) :
    Except UsageFault ArgumentState :=
  match Argument.ofText text with
  | .long name value => state.takeLong command name value
  | .letters letters => state.takeLetters command letters
  | _ =>
    match state.pending with
    | some (parameter, none) => .ok { state with pending := some (parameter, some text) }
    | _ => state.takeWord text

/-- Reads the arguments of a command. -/
def takeAll (state : ArgumentState) (command : Command) :
    List String → Except UsageFault ArgumentState
  | [] => .ok state
  | text :: texts =>
    if Argument.ofText text = .divider then texts.foldlM takeWord state
    else do
      let state ← state.take command text
      state.takeAll command texts

/-- The value of a parameter. -/
def value? (state : ArgumentState) (parameter : Parameter) : Option String :=
  state.values.lookup parameter

/-- The value of a parameter that is a path. -/
def path? (state : ArgumentState) (parameter : Parameter) : Option Path :=
  (state.value? parameter).map Path.mk

/-- The settings that the arguments replace. -/
def overrides (state : ArgumentState) : ConfigOverrides where
  outputDirectory := state.path? .outputDirectory
  byteOrder := (state.value? .byteOrder).bind ByteOrder.ofName?
  scalar := (state.value? .scalar).bind ScalarEncoding.ofName?
  verbose := state.verbose
  onMissing := (state.value? .onMissing).bind MissingPolicy.ofName?
  timestamp := (state.value? .timestamp).bind timestamp?
  assetRoot := state.path? .assetRoot

/-- What the arguments of a command ask for. -/
def invocation (state : ArgumentState) (command : Command) : Except UsageFault Invocation :=
  match state.path? .file with
  | none => .error .missingRequiredArgument
  | some file =>
    match command with
    | .compile => .ok (.compile file state.overrides)
    | .assemble => .ok (.assemble file (state.path? .output) state.overrides)
    | .dump =>
      .ok (.dump file ((state.value? .kind).bind ChunkKind.ofEntityExtension?)
        (state.path? .symbols) ((state.value? .byteOrder).bind ByteOrder.ofName?)
        (((state.value? .colour).bind ColourChoice.ofName?).getD .auto))

end ArgumentState

namespace Invocation

/-- Adds the flag for more output that stands before the command. -/
def withVerbose (verbose : Bool) : Invocation → Invocation
  | .compile file overrides =>
    .compile file { overrides with verbose := overrides.verbose || verbose }
  | .assemble file output overrides =>
    .assemble file output { overrides with verbose := overrides.verbose || verbose }
  | other => other

/-- Reads the arguments after the name of a command. -/
def ofCommandArguments (command : Command) (texts : List String) :
    Except UsageFault Invocation := do
  let state ← ArgumentState.start.takeAll command texts
  let state ← state.settle
  state.invocation command

/-- Whether a word is taken for a command. -/
def isCommandWord (text : String) : Bool :=
  (Command.ofName? text).isSome || text == "help"

/-- What a request for help asks for: help on one command, or on all. -/
def helpFault : List String → UsageFault
  | [] => .displayHelp
  | [text] => if isCommandWord text then .displayHelp else .invalidSubcommand
  | _ => .invalidSubcommand

/-- Reads letters before a command: more output, or help. -/
def leadingLetters (verbose : Bool) : List Char → Except UsageFault Bool
  | [] => .ok verbose
  | 'v' :: letters => if verbose then .error .argumentConflict else leadingLetters true letters
  | 'h' :: _ => .error .displayHelp
  | _ => .error .unknownArgument

/-- Reads a long name before a command. -/
def leadingLong (verbose : Bool) (name : String) (value : Option String) :
    Except UsageFault Bool :=
  if name = "verbose" || name = "help" then
    if value.isSome then .error .tooManyValues
    else if name = "help" then .error .displayHelp
    else if verbose then .error .argumentConflict
    else .ok true
  else .error .unknownArgument

/-- What is wrong when no command was named. -/
def missingCommand (verbose : Bool) : UsageFault :=
  if verbose then .missingSubcommand else .displayHelpOnMissingArgument

/-- Reads arguments up to the command and the command's own, given whether the flag for more output
has been read. -/
def ofTexts (verbose : Bool) : List String → Except UsageFault Invocation
  | [] => .error (missingCommand verbose)
  | text :: texts =>
    match Argument.ofText text with
    | .word word =>
      match Command.ofName? word with
      | some command => (ofCommandArguments command texts).map (withVerbose verbose)
      | none => .error (if word = "help" then helpFault texts else .invalidSubcommand)
    | .divider =>
      match texts with
      | [] => .error (missingCommand verbose)
      | word :: _ => .error (if isCommandWord word then .unknownArgument else .invalidSubcommand)
    | .long name value => do
      let verbose ← leadingLong verbose name value
      ofTexts verbose texts
    | .letters letters => do
      let verbose ← leadingLetters verbose letters
      ofTexts verbose texts

/-- What arguments ask for. -/
def ofArguments (texts : List String) : Except UsageFault Invocation :=
  ofTexts false texts

end Invocation

end StageArchive
