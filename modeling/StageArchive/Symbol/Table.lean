import StageArchive.Symbol.Namespace
/-!
# Symbol tables

Names are recorded in any order while an authoring tree is walked. When the table is finished each
namespace becomes a strictly increasing list, and the position of a name in it is the index that
compiled streams carry. Names are ordered by code point, which is also the order of their UTF-8
bytes. Class names carry the metadata of their first declaration.
-/

namespace StageArchive

/-- The declared class of a node. The header and package are carried through unread. -/
structure ClassInfo where
  name : String
  header : Option String
  package : Option String
  deriving DecidableEq, Repr

/-- The class of the given name without metadata. -/
def ClassInfo.plain (name : String) : ClassInfo :=
  ⟨name, none, none⟩

/-- The name under which a property of a class is recorded. -/
def qualifiedProperty (className property : String) : String :=
  className ++ "_" ++ property

namespace Symbol

/-- Inserts a name into an increasing list, unless it is there. -/
def insertName (name : String) : List String → List String
  | [] => [name]
  | head :: rest =>
    if name < head then name :: head :: rest
    else if name = head then head :: rest
    else head :: insertName name rest

/-- The names of a list in increasing order, each once. -/
def sortNames (names : List String) : List String :=
  names.foldl (fun sorted name => insertName name sorted) []

/-- Inserts a class into a list increasing by name, unless one of that name is there. -/
def insertClass (info : ClassInfo) : List ClassInfo → List ClassInfo
  | [] => [info]
  | head :: rest =>
    if info.name < head.name then info :: head :: rest
    else if info.name = head.name then head :: rest
    else head :: insertClass info rest

/-- The classes of a list in increasing order of name; of one name the first is kept. -/
def sortClasses (classes : List ClassInfo) : List ClassInfo :=
  classes.foldl (fun sorted info => insertClass info sorted) []

/-- Up to this many names are compared one after the other. -/
def linearSearchLimit : Nat := 8

/-- Halves a range of `size` names from the place `base` on, until one place is left: that of the name,
if it is in the range. -/
def bisect (names : List String) (name : String) (base size : Nat) : Nat :=
  if size ≤ 1 then base
  else
    let middle := base + size / 2
    bisect names name (if (names[middle]?).any (name < ·) then base else middle) (size - size / 2)
termination_by size

/-- The place of a name in an increasing list. -/
def place? (names : List String) (name : String) : Option Nat :=
  if names.length ≤ linearSearchLimit then names.idxOf? name
  else
    let place := bisect names name 0 names.length
    if names[place]? = some name then some place else none

end Symbol

/-- Names and classes as they are recorded, the last one first. -/
structure SymbolRecord where
  names : NamespaceMap (List String)
  classes : NamespaceMap (List ClassInfo)
  deriving DecidableEq, Repr

/-- A finished symbol table. A namespace that a loaded document does not mention is absent, and so
is one without classes in a table that was recorded. -/
structure SymbolTable where
  spaces : NamespaceMap (Option (List String))
  classes : NamespaceMap (Option (List ClassInfo))
  deriving DecidableEq, Repr

namespace SymbolRecord

/-- Nothing recorded. -/
def empty : SymbolRecord :=
  ⟨.const [], .const []⟩

/-- Records a name. -/
def addName (record : SymbolRecord) (space : Namespace) (name : String) : SymbolRecord :=
  { record with names := record.names.modify space (name :: ·) }

/-- Records a class name with its metadata; of the declarations of one class the first counts. -/
def addClass (record : SymbolRecord) (space : Namespace) (info : ClassInfo) : SymbolRecord :=
  { record.addName space info.name with classes := record.classes.modify space (info :: ·) }

/-- The table of everything recorded. -/
def finish (record : SymbolRecord) : SymbolTable where
  spaces := record.names.map fun names => some (Symbol.sortNames names.reverse)
  classes := record.classes.map fun classes =>
    if classes.isEmpty then none else some (Symbol.sortClasses classes.reverse)

end SymbolRecord

namespace SymbolTable

/-- A table without names. -/
def empty : SymbolTable :=
  ⟨.const none, .const none⟩

/-- The table with its names and classes in order; of classes with one name the first is kept. -/
def normalize (table : SymbolTable) : SymbolTable where
  spaces := table.spaces.map (·.map Symbol.sortNames)
  classes := table.classes.map (·.map Symbol.sortClasses)

/-- The names of a namespace, in index order. -/
def names (table : SymbolTable) (space : Namespace) : List String :=
  (table.spaces.get space).getD []

/-- The index of a name; none for a name that was never recorded. -/
def index? (table : SymbolTable) (space : Namespace) (name : String) : Option UInt32 :=
  (Symbol.place? (table.names space) name).map UInt32.ofNat

/-- The name at an index. -/
def name? (table : SymbolTable) (space : Namespace) (index : UInt32) : Option String :=
  (table.names space)[index.toNat]?

/-- The number of names of a namespace. -/
def size (table : SymbolTable) (space : Namespace) : Nat :=
  (table.names space).length

/-- No namespace has a name. -/
def isEmpty (table : SymbolTable) : Bool :=
  Namespace.all.all fun space => (table.names space).isEmpty

/-- The metadata recorded for a class. -/
def classInfo? (table : SymbolTable) (space : Namespace) (name : String) : Option ClassInfo :=
  ((table.classes.get space).getD []).find? (·.name == name)

/-- Every name with its namespace and index, namespace after namespace. -/
def entries (table : SymbolTable) : List (Namespace × Nat × String) :=
  Namespace.all.flatMap fun space =>
    (table.names space).zipIdx.map fun (name, index) => (space, index, name)

end SymbolTable

end StageArchive
