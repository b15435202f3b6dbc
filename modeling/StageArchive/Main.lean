import StageArchive.CommandLine.Run
import Std.Time.DateTime
/-!
# The program

Files are those of the machine, the time is the present and notices go to the error output.
-/

namespace StageArchive

/-- The fault that an error of the machine stands for. -/
def FileFault.ofError : IO.Error → FileFault
  | .noFileOrDirectory .. => .notFound
  | .alreadyExists .. => .alreadyExists
  | .resourceBusy .. => .busy
  | .inappropriateType _ code _ => if code = 21 then .isADirectory else .notADirectory
  | .invalidArgument _ 36 _ => .nameTooLong
  | .invalidArgument _ 22 _ => .invalidArgument
  | error => .other (toString error)

/-- An operation of the machine, with its error as an outcome. -/
def attempt {α : Type} (operation : IO α) : IO (Except FileFault α) := do
  match ← operation.toBaseIO with
  | .ok value => return .ok value
  | .error error => return .error (.ofError error)

/-- An operation of the machine on a path, which must not hold a zero character. -/
def attemptAt {α : Type} (path : Path) (operation : IO α) : IO (Except FileFault α) :=
  if path.holdsZero then pure (.error .invalidPath) else attempt operation

/-- The name of a file that is not complete yet. -/
def incompleteName (path : Path) : String :=
  path.text ++ ".incomplete"

instance : FileAccess IO where
  read path := attemptAt path do return (← IO.FS.readBinFile path.text).data.toList
  isFile path := do
    match ← attempt (IO.FS.readBinFile path.text) with
    | .ok _ => return true
    | .error _ => return false
  write path content := attemptAt path (IO.FS.writeBinFile path.text ⟨content.toArray⟩)
  -- a dot is there in every directory and nowhere else
  isDirectory path := do
    match ← attempt (IO.FS.createDir (path.text ++ "/.")) with
    | .error .alreadyExists => return true
    | _ => return false
  makeDirectory path := attemptAt path (IO.FS.createDir path.text)
  admitsFiles path := attemptAt path do
    let probe := path.text ++ "/.playprint.incomplete"
    IO.FS.writeBinFile probe .empty
    IO.FS.removeFile probe
  place path content := attempt do
    IO.FS.writeBinFile (incompleteName path) ⟨content.toArray⟩
    try IO.FS.rename (incompleteName path) path.text
    catch error =>
      IO.FS.removeFile (incompleteName path)
      throw error

/-- How the program is used. -/
def usage : String :=
  "Usage: playprint [-v] compile WORKPRINT [-o DIR] [--byte-order ORDER] [--scalar ENCODING]\n" ++
  "                 [--on-missing POLICY] [--timestamp SECONDS] [--asset-root DIR]\n" ++
  "       playprint [-v] assemble MANIFEST [-o FILE] [--on-missing POLICY]\n" ++
  "                 [--timestamp SECONDS]\n" ++
  "       playprint [-v] dump FILE [--kind KIND] [--symbols FILE] [--byte-order ORDER]\n" ++
  "                 [--color WHEN]\n"

/-- What is wrong with the arguments, or the help that they ask for. -/
def UsageFault.message : UsageFault → String
  | .missingRequiredArgument => "error: a required argument is missing\n"
  | .unknownArgument => "error: unexpected argument\n"
  | .invalidValue => "error: invalid value\n"
  | .valueValidation => "error: invalid number\n"
  | .argumentConflict => "error: an argument is repeated\n"
  | .tooManyValues => "error: unexpected value\n"
  | .invalidSubcommand => "error: unrecognized subcommand\n"
  | .missingSubcommand => "error: a subcommand is required\n"
  | .displayHelp | .displayHelpOnMissingArgument => ""

/-- Says how the program is used. -/
def reportUsage (fault : UsageFault) : IO UInt32 := do
  if fault = .displayHelp then
    IO.print usage
    return 0
  else
    IO.eprint (fault.message ++ usage)
    return 2

/-- The present, in seconds since 1970. -/
def clock : IO UInt32 := do
  let now ← Std.Time.Timestamp.now
  return UInt32.ofNat now.toSecondsSinceUnixEpoch.val.toNat

end StageArchive

/-- Does what the arguments ask for. -/
def main (arguments : List String) : IO UInt32 := do
  match StageArchive.Invocation.ofArguments arguments with
  | .error fault => StageArchive.reportUsage fault
  | .ok invocation =>
    let terminal ← (← IO.getStdout).isTty
    let outcome : StageArchive.Outcome ← invocation.run (← StageArchive.clock) terminal
    for notice in outcome.notices do
      IO.eprintln notice.message
    IO.print outcome.output
    return outcome.code
