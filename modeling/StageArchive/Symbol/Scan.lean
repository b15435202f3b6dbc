import StageArchive.Tree.Node
/-!
# The symbols of a tree

One walk over an authoring tree records every name that its entities mention: the class of each
classified node, the names of groups, actors, roles and sets, and the properties of everything but
media, each under the name of its class. A node without a class records nothing.
-/

namespace StageArchive

/-- A name that an entity needs and does not have. -/
inductive SymbolFault where
  | unclassified (kind : NodeKind) (node : String)
  | unknown (space : Namespace) (name : String)
  | notASet (actor name : String)
  deriving DecidableEq, Repr

/-- The wording of a fault. -/
def SymbolFault.message : SymbolFault → String
  | .unclassified kind node => s!"{kind.name} '{node}' has no declared class"
  | .unknown space name => s!"unknown {space.name} '{name}'"
  | .notASet actor name => s!"actor '{actor}' binds '{name}', which is not a set"

/-- Says which class a node has. -/
abbrev ClassResolver := Node → Option ClassInfo

/-- The class that a node's attributes declare. -/
def ClassResolver.attributes : ClassResolver := fun node =>
  node.data.class?

/-- Records the names of properties of a class. -/
def SymbolRecord.addProperties (record : SymbolRecord) (className : String)
    (properties : List Property) : SymbolRecord :=
  properties.foldl
    (fun record property => record.addName .property (qualifiedProperty className property.name))
    record

/-- Records what a node mentions. -/
def SymbolRecord.addNode (resolver : ClassResolver) (record : SymbolRecord) (node : Node) :
    SymbolRecord :=
  match node.kind.classNamespace?, resolver node with
  | some space, some info =>
    let named := if node.kind.hasInstanceName then record.addName .instances node.name else record
    let described :=
      if node.kind = .media then named else named.addProperties info.name node.data.properties
    described.addClass space info
  | _, _ => record

/-- The table of everything a tree mentions. -/
def SymbolTable.scan (resolver : ClassResolver) (root : Node) : SymbolTable :=
  (root.preorder.foldl (SymbolRecord.addNode resolver) .empty).finish

/-- The index of a name that must be in the table. -/
def SymbolTable.lookup (table : SymbolTable) (space : Namespace) (name : String) :
    Except SymbolFault UInt32 :=
  match table.index? space name with
  | none => .error (.unknown space name)
  | some index => .ok index

end StageArchive
