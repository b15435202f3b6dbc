import StageArchive.Symbol.Namespace
/-!
# Kinds of nodes

A production is authored as a tree: scenes, groups, sets and media below the root, groups inside
scenes, actors inside groups and roles inside actors.
-/

namespace StageArchive

/-- What a node of an authoring tree is. -/
inductive NodeKind where
  | root
  | scene
  | group
  | actor
  | role
  | set
  | media
  deriving DecidableEq, Repr

namespace NodeKind

/-- Every kind. -/
def all : List NodeKind :=
  [.root, .scene, .group, .actor, .role, .set, .media]

/-- The name of a kind in documents and messages. -/
def name : NodeKind → String
  | .root => "root"
  | .scene => "scene"
  | .group => "group"
  | .actor => "actor"
  | .role => "role"
  | .set => "set"
  | .media => "media"

/-- The kind with the given name. -/
def ofName? (name : String) : Option NodeKind :=
  all.find? (·.name == name)

/-- The kinds of nodes that a node may contain. -/
def allowedChildren : NodeKind → List NodeKind
  | .root => [.scene, .group, .set, .media]
  | .scene => [.group]
  | .group => [.actor]
  | .actor => [.role]
  | .role | .set | .media => []

/-- Whether a node is emitted as a file of its own. -/
def isEntity : NodeKind → Bool
  | .scene | .group | .set | .media => true
  | .root | .actor | .role => false

/-- The namespace of a node's class. -/
def classNamespace? : NodeKind → Option Namespace
  | .root => none
  | .scene => some .sceneClass
  | .group => some .groupClass
  | .actor => some .actorClass
  | .role => some .roleClass
  | .set => some .setClass
  | .media => some .mediaClass

/-- Whether a node's name is an instance name. -/
def hasInstanceName : NodeKind → Bool
  | .group | .actor | .role | .set => true
  | .root | .scene | .media => false

end NodeKind

end StageArchive
