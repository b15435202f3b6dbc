/-!
# Namespaces of a symbol table

Names are indexed in eight independent spaces: one for the classes of each kind of node, one for
qualified property names and one for instance names. `NamespaceMap` holds a value for each.
-/

namespace StageArchive

/-- An index space of a symbol table. -/
inductive Namespace where
  | actorClass
  | roleClass
  | groupClass
  | sceneClass
  | setClass
  | mediaClass
  /-- Property names, qualified by the class that declares them. -/
  | property
  /-- Names of groups, actors, roles and sets. -/
  | instances
  deriving DecidableEq, Repr

namespace Namespace

/-- Every namespace, in the order in which tables list them. -/
def all : List Namespace :=
  [.actorClass, .roleClass, .groupClass, .sceneClass, .setClass, .mediaClass, .property, .instances]

/-- The name of a namespace in messages and documents. -/
def name : Namespace → String
  | .actorClass => "actor_class"
  | .roleClass => "role_class"
  | .groupClass => "group_class"
  | .sceneClass => "scene_class"
  | .setClass => "set_class"
  | .mediaClass => "media_class"
  | .property => "property"
  | .instances => "instance"

/-- The namespace with the given name. -/
def ofName? (name : String) : Option Namespace :=
  all.find? (·.name == name)

/-- Every namespace is listed. -/
theorem mem_all (space : Namespace) : space ∈ all := by
  cases space <;> decide

end Namespace

/-- A value for each namespace. -/
structure NamespaceMap (α : Type) where
  actorClass : α
  roleClass : α
  groupClass : α
  sceneClass : α
  setClass : α
  mediaClass : α
  property : α
  instances : α
  deriving DecidableEq, Repr

namespace NamespaceMap

variable {α β : Type}

/-- The value of a namespace. -/
def get (entries : NamespaceMap α) : Namespace → α
  | .actorClass => entries.actorClass
  | .roleClass => entries.roleClass
  | .groupClass => entries.groupClass
  | .sceneClass => entries.sceneClass
  | .setClass => entries.setClass
  | .mediaClass => entries.mediaClass
  | .property => entries.property
  | .instances => entries.instances

/-- The map with the values of a function. -/
def ofFn (value : Namespace → α) : NamespaceMap α where
  actorClass := value .actorClass
  roleClass := value .roleClass
  groupClass := value .groupClass
  sceneClass := value .sceneClass
  setClass := value .setClass
  mediaClass := value .mediaClass
  property := value .property
  instances := value .instances

/-- The same value for every namespace. -/
def const (value : α) : NamespaceMap α :=
  ofFn fun _ => value

/-- The map with a function applied to each value. -/
def map (f : α → β) (entries : NamespaceMap α) : NamespaceMap β :=
  ofFn fun space => f (entries.get space)

/-- The map with a function applied to the value of one namespace. -/
def modify (entries : NamespaceMap α) (space : Namespace) (f : α → α) : NamespaceMap α :=
  ofFn fun other => if other = space then f (entries.get other) else entries.get other

@[simp]
theorem get_ofFn (value : Namespace → α) (space : Namespace) :
    (ofFn value).get space = value space := by
  cases space <;> rfl

@[simp]
theorem get_map (f : α → β) (entries : NamespaceMap α) (space : Namespace) :
    (entries.map f).get space = f (entries.get space) := by
  simp [map]

@[simp]
theorem get_modify (entries : NamespaceMap α) (space other : Namespace) (f : α → α) :
    (entries.modify space f).get other =
      if other = space then f (entries.get other) else entries.get other := by
  simp [modify]

/-- Maps with the same value for every namespace are equal. -/
@[ext]
theorem ext_get {first second : NamespaceMap α}
    (h : ∀ space, first.get space = second.get space) : first = second := by
  cases first
  cases second
  have h₁ := h .actorClass
  have h₂ := h .roleClass
  have h₃ := h .groupClass
  have h₄ := h .sceneClass
  have h₅ := h .setClass
  have h₆ := h .mediaClass
  have h₇ := h .property
  have h₈ := h .instances
  simp_all [get]

end NamespaceMap

end StageArchive
