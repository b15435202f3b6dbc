/-!
# Paths

A path is text whose parts are separated by slashes. Joining changes nothing in either part; taking
the parent of a path or its extension looks at its parts, among which empty ones and single dots do
not count after the first.
-/

namespace StageArchive

/-- A path as text. -/
structure Path where
  text : String
  deriving DecidableEq, Repr, Inhabited

namespace Path

/-- The parts of a text between its slashes. -/
def split : List Char → List (List Char)
  | [] => [[]]
  | c :: rest =>
    if c = '/' then [] :: split rest
    else
      match split rest with
      | [] => [[c]]
      | part :: parts => (c :: part) :: parts

/-- The parts of a path between its slashes. -/
def parts (path : Path) : List String :=
  (split path.text.toList).map String.ofList

/-- Whether a path starts from the root. -/
def isAbsolute (path : Path) : Bool :=
  path.text.toList.head? == some '/'

/-- Whether a path holds a zero character, which no name can. -/
def holdsZero (path : Path) : Bool :=
  path.text.toList.contains '\x00'

/-- A path taken from another; an absolute one stands alone. -/
def join (base path : Path) : Path :=
  if path.isAbsolute || base.text.isEmpty then path
  else if base.text.toList.getLast? == some '/' then ⟨base.text ++ path.text⟩
  else ⟨base.text ++ "/" ++ path.text⟩

/-- A path taken from another, where there is another and the path is relative. -/
def joinOn (base : Option Path) (path : Path) : Path :=
  match base with
  | none => path
  | some base => base.join path

/-- A part that names nothing. -/
def isIdle (part : String) : Bool :=
  part == "" || part == "."

/-- What a path starts with that is not a name: the root, or a dot for the working directory. -/
def anchor (path : Path) : String :=
  if path.isAbsolute then "/" else if path.parts.head? == some "." then "." else ""

/-- The parts of a path after its anchor. -/
def body (path : Path) : List String :=
  if path.anchor.isEmpty then path.parts else path.parts.drop 1

/-- Parts without those at the end that name nothing. -/
def dropIdleEnd (parts : List String) : List String :=
  (parts.reverse.dropWhile isIdle).reverse

/-- The path with an anchor and further parts. -/
def ofBody (anchor : String) (body : List String) : Path :=
  if anchor == "." && !body.isEmpty then ⟨"./" ++ "/".intercalate body⟩
  else ⟨anchor ++ "/".intercalate body⟩

/-- The path without its last part; the root and the empty path have no parent. -/
def parent? (path : Path) : Option Path :=
  match dropIdleEnd path.body with
  | [] => if path.anchor == "." then some ⟨""⟩ else none
  | body => some (ofBody path.anchor (dropIdleEnd body.dropLast))

/-- The paths that end in a name among the given parts, the last part first: the longest path
first. -/
def chain (anchor : String) : (reversed : List String) → List Path
  | [] => []
  | part :: rest =>
    if isIdle part then chain anchor rest
    else ofBody anchor (part :: rest).reverse :: chain anchor rest

/-- A path and the paths above it that end in a name, the nearest first. -/
def lineage (path : Path) : List Path :=
  path :: (chain path.anchor path.body.reverse).drop 1

/-- The name at the end of a path, unless it leads upward. -/
def fileName? (path : Path) : Option String :=
  match (dropIdleEnd path.body).getLast? with
  | some ".." | none => none
  | some name => some name

/-- What follows the last dot of a name; a name that starts with its only dot has none. -/
def extensionOf? (name : String) : Option String :=
  let reversed := name.toList.reverse
  let tail := reversed.takeWhile (· != '.')
  match reversed.dropWhile (· != '.') with
  | _ :: _ :: _ => some (String.ofList tail.reverse)
  | _ => none

/-- The extension of a path. -/
def extension? (path : Path) : Option String :=
  path.fileName?.bind extensionOf?

/-- Joining onto the empty path changes nothing. -/
@[simp]
theorem empty_join (path : Path) : Path.join ⟨""⟩ path = path := by
  simp [join]

end Path

end StageArchive
