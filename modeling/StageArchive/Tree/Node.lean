import StageArchive.Path
import StageArchive.Symbol.Table
import StageArchive.Tree.Kind
import StageArchive.Tree.Value
/-!
# Authoring trees

A node holds what is authored about it and its children. Nodes are numbered in the order in which a
reader meets them: a node before its children, and each child with all its descendants before the
next.
-/

namespace StageArchive

/-- A file that a medium consists of. -/
structure MediaSource where
  flags : UInt32
  /-- The kind of file, of at most four characters. -/
  kind : String
  path : Path
  /-- Whether the container holds the file itself, not its path. -/
  embed : Bool
  deriving DecidableEq, Repr

/-- What is authored about a node. -/
structure NodeData where
  kind : NodeKind
  name : String
  attributes : List (String × String)
  flags : UInt32
  properties : List Property
  media : List MediaSource
  deriving DecidableEq, Repr

/-- A node with everything below it. -/
inductive Node where
  | mk (data : NodeData) (children : List Node)
  deriving Repr

namespace NodeData

/-- The value of an attribute. -/
def attribute? (data : NodeData) (key : String) : Option String :=
  (data.attributes.find? (·.1 == key)).map (·.2)

/-- The declared class, which three attributes give. -/
def class? (data : NodeData) : Option ClassInfo :=
  (data.attribute? "class").map fun name =>
    ⟨name, data.attribute? "header", data.attribute? "package"⟩

end NodeData

namespace Node

/-- What is authored about the node itself. -/
def data : Node → NodeData
  | mk data _ => data

/-- The children in authoring order. -/
def children : Node → List Node
  | mk _ children => children

/-- What the node is. -/
def kind (node : Node) : NodeKind :=
  node.data.kind

/-- The node's name. -/
def name (node : Node) : String :=
  node.data.name

mutual

/-- The node and all its descendants, in order of their numbers. -/
def preorder : Node → List Node
  | mk data children => mk data children :: preorderAll children

/-- The nodes of a list with all their descendants. -/
def preorderAll : List Node → List Node
  | [] => []
  | node :: nodes => preorder node ++ preorderAll nodes

end

/-- All descendants of a node, in order. -/
def descendants (node : Node) : List Node :=
  preorderAll node.children

/-- The number of nodes of a tree. -/
def size (node : Node) : Nat :=
  node.preorder.length

/-- The descendants of a kind, in order. -/
def descendantsOfKind (node : Node) (kind : NodeKind) : List Node :=
  node.descendants.filter (·.kind = kind)

/-- The children of a kind, in authoring order. -/
def childrenOfKind (node : Node) (kind : NodeKind) : List Node :=
  node.children.filter (·.kind = kind)

end Node

/-- A node with its number, the number of its parent and those of its children. -/
structure OutlineEntry where
  number : Nat
  node : Node
  parent : Option Nat
  children : List Nat

namespace Node

/-- The numbers of siblings, of which the first has the given one. -/
def siblingNumbers (first : Nat) : List Node → List Nat
  | [] => []
  | node :: nodes => first :: siblingNumbers (first + node.size) nodes

mutual

/-- The entries of a node with the given number and of its descendants. -/
def outlineFrom (number : Nat) (parent : Option Nat) : Node → List OutlineEntry
  | mk data children =>
    ⟨number, mk data children, parent, siblingNumbers (number + 1) children⟩ ::
      outlineAll (number + 1) number children

/-- The entries of siblings, of which the first has the given number, and of their descendants. -/
def outlineAll (first parent : Nat) : List Node → List OutlineEntry
  | [] => []
  | node :: nodes =>
    outlineFrom first (some parent) node ++ outlineAll (first + node.size) parent nodes

end

/-- The entries of a whole tree, in order of their numbers from zero. -/
def outline (root : Node) : List OutlineEntry :=
  outlineFrom 0 none root

end Node

namespace OutlineEntry

/-- The numbers of the descendants of a kind. -/
def descendantsOfKind (entry : OutlineEntry) (kind : NodeKind) : List Nat :=
  ((entry.node.descendants.zipIdx (entry.number + 1)).filter (·.1.kind = kind)).map (·.2)

/-- The numbers of the children of a kind. -/
def childrenOfKind (entry : OutlineEntry) (kind : NodeKind) : List Nat :=
  ((entry.node.children.zip entry.children).filter (·.1.kind = kind)).map (·.2)

end OutlineEntry

end StageArchive
