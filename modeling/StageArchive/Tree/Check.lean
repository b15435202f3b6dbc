import StageArchive.FileSystem
import StageArchive.Json.Shape
import StageArchive.Tree.Node
/-!
# Checking authoring trees

In a well-formed tree the root is a root, every node has a name and lies where its kind may lie, and
the names of entities can serve as the names of their files: each is one plain part of a path, and
no two entities of a kind share one.
-/

namespace StageArchive

/-- What is wrong with an authoring tree. -/
inductive TreeFault where
  | unreadable (path : Path) (fault : FileFault)
  /-- The text is no document of a tree. -/
  | invalidDocument (refusal : Json.Refusal)
  | rootKind (kind : NodeKind)
  | unexpectedChild (parent : String) (parentKind : NodeKind) (child : String)
      (childKind : NodeKind)
  | emptyName (kind : NodeKind)
  | unsafeName (kind : NodeKind) (name : String)
  | duplicateName (kind : NodeKind) (name : String)
  deriving DecidableEq, Repr

/-- The wording of a fault. -/
def TreeFault.message : TreeFault → String
  | .unreadable path fault => s!"cannot read '{path.text}': {fault.message}"
  | .invalidDocument refusal => s!"invalid workprint JSON: {refusal.message}"
  | .rootKind kind => s!"workprint root must have kind 'root', found '{kind.name}'"
  | .unexpectedChild parent parentKind child childKind =>
    s!"{childKind.name} '{child}' cannot be placed inside {parentKind.name} '{parent}'"
  | .emptyName kind => s!"{kind.name} node has an empty name"
  | .unsafeName kind name => s!"{kind.name} name '{name}' is not a plain file name"
  | .duplicateName kind name => s!"{kind.name} name '{name}' is used more than once"

/-- Whether a name can be the name of a file. -/
def isFileStem (name : String) : Bool :=
  !(name == "" || name == "." || name == "..") && !name.toList.contains '/'

namespace Node

/-- A fault of the node itself: an empty name, or a child where it may not lie. -/
def placementFault? (node : Node) : Option TreeFault :=
  if node.name.isEmpty then some (.emptyName node.kind)
  else
    (node.children.find? fun child => !node.kind.allowedChildren.contains child.kind).map
      fun child => .unexpectedChild node.name node.kind child.name child.kind

/-- The first entity of a list whose name cannot be the name of its file, given the kinds and names
of the entities before the list. -/
def nameFault? (seen : List (NodeKind × String)) : List Node → Option TreeFault
  | [] => none
  | node :: nodes =>
    if !node.kind.isEntity then nameFault? seen nodes
    else if !isFileStem node.name then some (.unsafeName node.kind node.name)
    else if seen.contains (node.kind, node.name) then some (.duplicateName node.kind node.name)
    else nameFault? ((node.kind, node.name) :: seen) nodes

/-- Refuses a tree with an entity whose name cannot be the name of its file. -/
def checkNames (root : Node) : Except TreeFault Unit :=
  match nameFault? [] root.preorder with
  | some fault => .error fault
  | none => .ok ()

/-- Refuses a tree that is not well-formed. -/
def check (root : Node) : Except TreeFault Unit := do
  if root.kind ≠ .root then throw (.rootKind root.kind)
  match root.preorder.findSome? placementFault? with
  | some fault => throw fault
  | none => root.checkNames

end Node

end StageArchive
