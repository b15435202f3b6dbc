import StageArchive.ByteOrder
import StageArchive.Path
import StageArchive.Text.Encoding
/-!
# Files

What the program asks of a file system, and a file system as a value: directories and files by the
names that lead to them from the root, and a working directory. A name on the way to a file must be
a directory's; two dots lead to the directory above.
-/

namespace StageArchive

/-- Why a file operation fails. -/
inductive FileFault where
  | notFound
  | alreadyExists
  | isADirectory
  | notADirectory
  | nameTooLong
  | busy
  /-- The path holds a zero character. -/
  | invalidPath
  /-- A complete file cannot take a path with a zero character. -/
  | invalidArgument
  /-- The content is not text. -/
  | invalidText
  | other (message : String)
  deriving DecidableEq, Repr

/-- The wording of a fault. -/
def FileFault.message : FileFault → String
  | .notFound => "No such file or directory (os error 2)"
  | .alreadyExists => "File exists (os error 17)"
  | .isADirectory => "Is a directory (os error 21)"
  | .notADirectory => "Not a directory (os error 20)"
  | .nameTooLong => "File name too long (os error 36)"
  | .busy => "Device or resource busy (os error 16)"
  | .invalidPath => "file name contained an unexpected NUL byte"
  | .invalidArgument => "Invalid argument (os error 22)"
  | .invalidText => "stream did not contain valid UTF-8"
  | .other message => message

/-- What the program asks of a file system. -/
class FileAccess (m : Type → Type) where
  /-- The content of a file. -/
  read : Path → m (Except FileFault Bytes)
  /-- Whether a path leads to a file. -/
  isFile : Path → m Bool
  /-- Creates a file or replaces its content. -/
  write : Path → Bytes → m (Except FileFault Unit)
  /-- Whether a path leads to a directory. -/
  isDirectory : Path → m Bool
  /-- Makes a directory, where the one it lies in is there. -/
  makeDirectory : Path → m (Except FileFault Unit)
  /-- Whether files can be created in a directory. -/
  admitsFiles : Path → m (Except FileFault Unit)
  /-- Puts a complete file in place, replacing one that is there. -/
  place : Path → Bytes → m (Except FileFault Unit)

namespace FileAccess

variable {m : Type → Type} [Monad m] [FileAccess m]

/-- Reads a file as text. -/
def readText (path : Path) : m (Except FileFault String) := do
  match ← FileAccess.read path with
  | .error fault => pure (.error fault)
  | .ok bytes =>
    match Text.ofUtf8? bytes with
    | none => pure (.error .invalidText)
    | some text => pure (.ok text)

/-- Makes one directory, unless it is there. -/
def ensureDirectory (path : Path) : m (Except FileFault Unit) := do
  match ← FileAccess.makeDirectory path with
  | .error .alreadyExists =>
    if ← FileAccess.isDirectory path then return .ok () else return .error .alreadyExists
  | outcome => return outcome

/-- Ensures the first of some directories, each of which lies in the next. Where the next is
missing, that one is ensured before; what is made before a fault stays. -/
def ensureDirectories : List Path → m (Except FileFault Unit)
  | [] => return .ok ()
  | path :: above => do
    match ← ensureDirectory path with
    | .error .notFound =>
      match ← ensureDirectories above with
      | .ok () => ensureDirectory path
      | .error fault => return .error fault
    | outcome => return outcome

/-- Creates a directory and those it lies in, where they are missing. -/
def createDirectories (path : Path) : m (Except FileFault Unit) :=
  if path.text.isEmpty then pure (.ok ()) else ensureDirectories path.lineage

end FileAccess

/-- The names that lead from the root to a file or directory. -/
abbrev Location := List String

/-- What lies at a location. -/
inductive FileEntry where
  | directory
  | file (content : Bytes)
  deriving DecidableEq, Repr

/-- A file system. -/
structure FileSystem where
  entries : List (Location × FileEntry)
  working : Location
  deriving DecidableEq, Repr

namespace FileSystem

/-- A file system with an empty working directory. -/
def ofWorking (name : String) : FileSystem :=
  ⟨[([name], .directory)], [name]⟩

/-- What lies at a location. The root is always there. -/
def entry? (system : FileSystem) (location : Location) : Option FileEntry :=
  if location = [] then some .directory
  else (system.entries.find? (·.1 = location)).map (·.2)

/-- The file system with something put at a location. -/
def insert (system : FileSystem) (location : Location) (entry : FileEntry) : FileSystem :=
  { system with
    entries := (location, entry) :: system.entries.filter fun other => other.1 ≠ location }

/-- The longest name, in bytes. -/
def nameLimit : Nat := 255

/-- The longest path, in bytes. -/
def pathLimit : Nat := 4095

/-- Follows the parts of a path from a location. All but the last must be directories; the last may
be missing. -/
def follow (system : FileSystem) (here : Location) : List String → Except FileFault Location
  | [] => .ok here
  | part :: parts =>
    match system.entry? here with
    | none => .error .notFound
    | some (.file _) => .error .notADirectory
    | some .directory =>
      if Path.isIdle part then system.follow here parts
      else if part = ".." then system.follow here.dropLast parts
      else if nameLimit < part.utf8ByteSize then .error .nameTooLong
      else system.follow (here ++ [part]) parts

/-- The location where a path starts. -/
def origin (system : FileSystem) (path : Path) : Location :=
  if path.isAbsolute then [] else system.working

/-- Why a path cannot be followed, whatever is there. -/
def pathFault? (path : Path) : Option FileFault :=
  if path.holdsZero then some .invalidPath
  else if pathLimit < path.text.utf8ByteSize then some .nameTooLong
  else none

/-- The location a path leads to. -/
def locate (system : FileSystem) (path : Path) : Except FileFault Location :=
  match pathFault? path with
  | some fault => .error fault
  | none =>
    if path.text.isEmpty then .error .notFound
    else system.follow (system.origin path) path.parts

/-- The content of a file. -/
def read (system : FileSystem) (path : Path) : Except FileFault Bytes := do
  match system.entry? (← system.locate path) with
  | none => throw .notFound
  | some .directory => throw .isADirectory
  | some (.file content) => pure content

/-- Whether a path leads to a file. -/
def isFile (system : FileSystem) (path : Path) : Bool :=
  match system.read path with
  | .ok _ => true
  | .error _ => false

/-- Creates a file or replaces its content. -/
def write (system : FileSystem) (path : Path) (content : Bytes) : Except FileFault FileSystem := do
  let location ← system.locate path
  if system.entry? location = some .directory then throw .isADirectory
  else pure (system.insert location (.file content))

/-- Parts without the empty ones that slashes at the end of a path leave. -/
def dropEmptyEnd (parts : List String) : List String :=
  (parts.reverse.dropWhile (· == "")).reverse

/-- The location a path leads to when slashes at its end do not count. -/
def locateBare (system : FileSystem) (path : Path) : Except FileFault Location :=
  match pathFault? path with
  | some fault => .error fault
  | none =>
    if path.text.isEmpty then .error .notFound
    else system.follow (system.origin path) (dropEmptyEnd path.parts)

/-- Whether a path leads to a directory. -/
def isDirectory (system : FileSystem) (path : Path) : Bool :=
  match system.locate path with
  | .ok location => system.entry? location == some .directory
  | .error _ => false

/-- Makes one directory, where the directory it lies in is there. -/
def makeDirectory (system : FileSystem) (path : Path) : Except FileFault FileSystem := do
  let location ← system.locateBare path
  match system.entry? location with
  | some _ => throw .alreadyExists
  | none => pure (system.insert location .directory)

/-- A path taken from the working directory. -/
def absolute (system : FileSystem) (path : Path) : Path :=
  Path.join ⟨"/" ++ "/".intercalate system.working⟩ path

/-- The name of a file that is not complete yet. -/
def temporaryName : Path := ⟨".temporary"⟩

/-- Whether files can be created in a directory. The first of them has a temporary name and is
created by its absolute path, which must not be too long. -/
def admitsFiles (system : FileSystem) (path : Path) : Except FileFault Unit := do
  if let some fault := pathFault? ((system.absolute path).join temporaryName) then throw fault
  match system.entry? (← system.locate path) with
  | none => throw .notFound
  | some (.file _) => throw .notADirectory
  | some .directory => pure ()

/-- Puts a complete file in place, replacing one that is there. The path is what the complete file
is renamed to, so a zero character in it is an argument that is refused. A directory that is the
root or is reached by dots is in use, and a slash at the end asks for a directory. -/
def place (system : FileSystem) (path : Path) (content : Bytes) : Except FileFault FileSystem := do
  if path.holdsZero then throw .invalidArgument
  let location ← system.locateBare path
  let named := dropEmptyEnd path.parts
  match named.getLast? with
  | none | some "." | some ".." => throw .busy
  | some _ =>
    if named.length < path.parts.length then throw .notADirectory
    else if system.entry? location = some .directory then throw .isADirectory
    else pure (system.insert location (.file content))

/-- An operation that changes the file system when it succeeds. -/
def change (operation : FileSystem → Except FileFault FileSystem) :
    StateM FileSystem (Except FileFault Unit) := fun system =>
  match operation system with
  | .ok changed => (.ok (), changed)
  | .error fault => (.error fault, system)

instance : FileAccess (StateM FileSystem) where
  read path := return (← get).read path
  isFile path := return (← get).isFile path
  write path content := change (·.write path content)
  isDirectory path := return (← get).isDirectory path
  makeDirectory path := change (·.makeDirectory path)
  admitsFiles path := return (← get).admitsFiles path
  place path content := change (·.place path content)

/-- The files below the working directory, each with the path that leads to it. -/
def workingFiles (system : FileSystem) : List (Path × Bytes) :=
  system.entries.filterMap fun (location, entry) =>
    match entry with
    | .directory => none
    | .file content =>
      if system.working.isPrefixOf location then
        some (⟨"/".intercalate (location.drop system.working.length)⟩, content)
      else none

/-- The file system with a file and the directories it lies in. -/
def withFile (system : FileSystem) (path : Path) (content : Bytes) : FileSystem :=
  let prepared : FileSystem :=
    match path.parent? with
    | none => system
    | some parent =>
      ((FileAccess.createDirectories parent : StateM FileSystem (Except FileFault Unit)) system).2
  match prepared.write path content with
  | .ok changed => changed
  | .error _ => prepared

end FileSystem

end StageArchive
