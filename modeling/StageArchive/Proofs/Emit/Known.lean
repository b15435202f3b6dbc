import StageArchive.Proofs.Compilation
import StageArchive.Proofs.Symbol.Scan
import StageArchive.Proofs.Tree.Walk
/-!
# Emission knows the names of the tree

The table of a tree holds every name that its nodes mention, so an emitter with this table looks up
nothing in vain, but for one name: that of a set below the root to which an actor is bound, since the
set itself may have no class. `FailsOnlyFor` says of a part of emission which unknown names it may
fail for; it is none for every part without such an actor.
-/

namespace StageArchive

/-- An outcome is no failure for an unknown name, unless it is an allowed one. -/
def FailsOnlyFor {α : Type} (allowed : Namespace → String → Prop) (outcome : Except EmitFault α) :
    Prop :=
  ∀ space name, outcome = .error (.symbol (.unknown space name)) → allowed space name

namespace FailsOnlyFor

variable {α β ε : Type} {allowed : Namespace → String → Prop}

/-- A success is no failure. -/
theorem ok (value : α) : FailsOnlyFor allowed (.ok value : Except EmitFault α) :=
  fun _ _ => nofun

/-- A failure for another reason is not one for an unknown name. -/
theorem of_ne {fault : EmitFault} (h : ∀ space name, fault ≠ .symbol (.unknown space name)) :
    FailsOnlyFor allowed (.error fault : Except EmitFault α) := by
  intro space name hfault
  exact absurd (Except.error.inj hfault) (h space name)

/-- A fault of another part that is passed on is not one for an unknown name. -/
theorem mapError {outcome : Except ε α} {reword : ε → EmitFault}
    (h : ∀ fault space name, reword fault ≠ .symbol (.unknown space name)) :
    FailsOnlyFor allowed (outcome.mapError reword) := by
  cases outcome with
  | error fault => exact of_ne (h fault)
  | ok value => exact ok value

/-- Steps that each fail only for allowed names do so together. -/
theorem bind {first : Except EmitFault α} {next : α → Except EmitFault β}
    (hfirst : FailsOnlyFor allowed first)
    (hnext : ∀ value, first = .ok value → FailsOnlyFor allowed (next value)) :
    FailsOnlyFor allowed (first >>= next) := by
  intro space name h
  cases first with
  | error fault => exact hfirst space name (congrArg Except.error (Except.error.inj h))
  | ok value => exact hnext value rfl space name h

/-- A step for each item of a list fails only for allowed names when each step does. -/
theorem foldlM {items : List β} {step : α → β → Except EmitFault α} {state : α}
    (h : ∀ item ∈ items, ∀ state, FailsOnlyFor allowed (step state item)) :
    FailsOnlyFor allowed (items.foldlM step state) := by
  induction items generalizing state with
  | nil => exact ok state
  | cons item items ih =>
      rw [List.foldlM_cons]
      exact (h item (List.mem_cons_self ..) state).bind fun _ _ =>
        ih fun other hother => h other (List.mem_cons_of_mem _ hother)

end FailsOnlyFor

/-- So does a step that may also change a state. -/
def StepFailsOnlyFor {σ α : Type} (allowed : Namespace → String → Prop)
    (step : ExceptT EmitFault (StateM σ) α) : Prop :=
  ∀ before, FailsOnlyFor allowed (step before).1

namespace StepFailsOnlyFor

variable {σ α β : Type} {allowed : Namespace → String → Prop}

/-- Steps that each fail only for allowed names do so together. -/
theorem bind {first : ExceptT EmitFault (StateM σ) α} {next : α → ExceptT EmitFault (StateM σ) β}
    (hfirst : StepFailsOnlyFor allowed first)
    (hnext : ∀ value, StepFailsOnlyFor allowed (next value)) :
    StepFailsOnlyFor allowed (first >>= next) := by
  intro before
  have hfaults := hfirst before
  rcases hrun : (first before : Except EmitFault α × σ) with ⟨fault | value, middle⟩
  · rw [hrun] at hfaults
    rw [run_bind_of_error hrun]
    intro space name h
    exact hfaults space name (congrArg Except.error (Except.error.inj h))
  · rw [run_bind_of_eq hrun]
    exact hnext value middle

/-- A step for each item of a list fails only for allowed names when each step does. -/
theorem mapM {items : List α} {step : α → ExceptT EmitFault (StateM σ) β}
    (h : ∀ item, StepFailsOnlyFor allowed (step item)) :
    StepFailsOnlyFor allowed (items.mapM step) := by
  induction items with
  | nil => exact fun _ => .ok []
  | cons item items ih =>
      rw [List.mapM_cons]
      exact bind (h item) fun _ => bind ih fun _ _ => .ok _

end StepFailsOnlyFor

namespace Emitter

open Compilation (emitterOf)

/-- The names of sets below the root that no node of the tree with a class has, and that an actor of an
entity is bound to. -/
structure IsDanglingSet (resolver : ClassResolver) (root node : Node) (space : Namespace)
    (name : String) : Prop where
  space_eq : space = .instances
  kind_eq : node.kind = .group
  bound : ∃ actor ∈ node.childrenOfKind .actor, actor.data.attribute? "set" = some name
  declared : ∃ set ∈ root.childrenOfKind .set, set.name = name
  unnamed : ∀ other ∈ root.preorder, other.kind.hasInstanceName = true →
    (resolver other).isSome = true → other.name ≠ name

variable {resolver : ClassResolver} {config : Config} {root node : Node}
  {allowed : Namespace → String → Prop}

/-- The index of a name fails for this name only, and not if a node of the tree mentions it. -/
theorem index_fails {space : Namespace} {name : String}
    (h : (∃ node ∈ root.preorder, Mentions resolver node space name) ∨ allowed space name) :
    FailsOnlyFor allowed ((emitterOf resolver config root).index space name) := by
  intro other unknown hfault
  unfold index at hfault
  cases hlookup : (emitterOf resolver config root).symbols.lookup space name with
  | ok found =>
      rw [hlookup] at hfault
      cases hfault
  | error fault =>
      obtain ⟨hnone, rfl⟩ := (SymbolTable.lookup_eq_error (SymbolTable.isOrdered_finish _)).mp hlookup
      rw [hlookup] at hfault
      cases hfault
      rcases h with hmentions | hallowed
      · exact absurd (SymbolTable.mem_names_scan.mpr hmentions) hnone
      · exact hallowed

/-- The class of a node of the tree has an index, if the node has a class. -/
theorem classOf_fails (hnode : node ∈ root.preorder) :
    FailsOnlyFor allowed ((emitterOf resolver config root).classOf node) := by
  unfold classOf
  split
  · rename_i space info hspace hinfo
    exact (index_fails (.inl ⟨node, hnode, .className hspace hinfo⟩)).bind fun _ _ => .ok _
  · exact .of_ne fun _ _ => nofun

/-- A node whose class has an index has that class. -/
theorem exists_space_of_classOf {info : ClassInfo} {index : UInt32}
    (h : (emitterOf resolver config root).classOf node = .ok (info, index)) :
    ∃ space, node.kind.classNamespace? = some space ∧ resolver node = some info := by
  unfold classOf at h
  split at h
  · rename_i space found hspace hfound
    obtain ⟨_, -, h⟩ := bind_eq_ok.mp h
    cases h
    exact ⟨space, hspace, hfound⟩
  · cases h

/-- The name of a node of the tree with a class has an index, where it is an instance name. -/
theorem instanceIndex_fails {info : ClassInfo} {space : Namespace} (hnode : node ∈ root.preorder)
    (hspace : node.kind.classNamespace? = some space) (hinfo : resolver node = some info)
    (hnamed : node.kind.hasInstanceName = true) :
    FailsOnlyFor allowed ((emitterOf resolver config root).instanceIndex node.name) :=
  index_fails (.inl ⟨node, hnode, .instanceName hspace hinfo hnamed⟩)

/-- A property of a node of the tree has an index. -/
theorem appendProperty_fails {encoder : Encoder} {info : ClassInfo} {space : Namespace}
    {property : Property} (hnode : node ∈ root.preorder)
    (hspace : node.kind.classNamespace? = some space) (hinfo : resolver node = some info)
    (hkind : node.kind ≠ .media) (hproperty : property ∈ node.data.properties) :
    FailsOnlyFor allowed
      ((emitterOf resolver config root).appendProperty info.name encoder property) := by
  refine (index_fails (.inl ⟨node, hnode, .property hspace hinfo hkind hproperty⟩)).bind ?_
  intro index _
  refine FailsOnlyFor.bind (.mapError fun _ _ _ => nofun) ?_
  intro encoded _
  cases encoded with
  | bytes value => exact .mapError fun _ _ _ => nofun
  | asset name =>
      dsimp only
      split
      · exact .of_ne fun _ _ => nofun
      · exact .ok _

/-- The properties of a node of the tree have indices. -/
theorem appendProperties_fails {encoder : Encoder} {info : ClassInfo} {space : Namespace}
    (hnode : node ∈ root.preorder) (hspace : node.kind.classNamespace? = some space)
    (hinfo : resolver node = some info) (hkind : node.kind ≠ .media) :
    FailsOnlyFor allowed
      ((emitterOf resolver config root).appendProperties info.name encoder node) :=
  .foldlM fun _ hproperty _ => appendProperty_fails hnode hspace hinfo hkind hproperty

/-- A node of the tree with an instance name is opened if it has a class. -/
theorem appendOpening_fails {encoder : Encoder} {opcode : Opcode} (hnode : node ∈ root.preorder)
    (hnamed : node.kind.hasInstanceName = true) :
    FailsOnlyFor allowed
      ((emitterOf resolver config root).appendOpening opcode encoder node) := by
  refine (classOf_fails hnode).bind ?_
  intro found hclass
  obtain ⟨space, hspace, hinfo⟩ := exists_space_of_classOf hclass
  exact (instanceIndex_fails hnode hspace hinfo hnamed).bind fun _ _ => .ok _

/-- A node that is opened has the class that is given with it. -/
theorem exists_space_of_appendOpening {encoder opened : Encoder} {opcode : Opcode}
    {info : ClassInfo}
    (h : (emitterOf resolver config root).appendOpening opcode encoder node =
      .ok (opened, info)) :
    ∃ space, node.kind.classNamespace? = some space ∧ resolver node = some info := by
  obtain ⟨found, hclass, h⟩ := bind_eq_ok.mp h
  obtain ⟨name, -, h⟩ := bind_eq_ok.mp h
  cases h
  exact exists_space_of_classOf hclass

/-- The names of a role are known. -/
theorem appendRole_fails {encoder : Encoder} {role : Node} (hrole : role ∈ root.preorder)
    (hkind : role.kind = .role) :
    FailsOnlyFor allowed ((emitterOf resolver config root).appendRole encoder role) := by
  have hnamed : role.kind.hasInstanceName = true := by
    rw [hkind]
    rfl
  refine (appendOpening_fails hrole hnamed).bind ?_
  rintro ⟨opened, info⟩ hopened
  obtain ⟨space, hspace, hinfo⟩ := exists_space_of_appendOpening hopened
  refine (appendProperties_fails hrole hspace hinfo ?_).bind fun _ _ => .ok _
  rw [hkind]
  nofun

/-- Nodes with instance names are of kinds that have classes. -/
theorem exists_space_of_hasInstanceName {kind : NodeKind} (h : kind.hasInstanceName = true) :
    ∃ space, kind.classNamespace? = some space := by
  cases kind with
  | root => cases h
  | scene | group | actor | role | set | media => exact ⟨_, rfl⟩

/-- An actor may be bound to a set below the root whose name no node of the tree mentions. -/
theorem appendBinding_fails {encoder : Encoder} {actor : Node}
    (hactor : actor ∈ node.childrenOfKind .actor) (hkind : node.kind = .group) :
    FailsOnlyFor (IsDanglingSet resolver root node)
      ((emitterOf resolver config root).appendBinding encoder actor) := by
  unfold appendBinding
  split
  · exact .ok _
  · rename_i name hname
    refine FailsOnlyFor.bind ?_ fun _ _ => .ok _
    unfold setIndex
    split
    · rename_i hset
      obtain ⟨set, hmem, hsame⟩ := List.any_eq_true.mp hset
      refine index_fails (Classical.or_iff_not_imp_left.mpr fun hnone => ?_)
      refine ⟨rfl, hkind, ⟨actor, hactor, hname⟩, ⟨set, hmem, eq_of_beq hsame⟩, ?_⟩
      rintro other hother hnamed hclass rfl
      obtain ⟨info, hinfo⟩ := Option.isSome_iff_exists.mp hclass
      obtain ⟨space, hspace⟩ := exists_space_of_hasInstanceName hnamed
      exact hnone ⟨other, hother, .instanceName hspace hinfo hnamed⟩
    · refine .of_ne fun _ _ hsame => ?_
      cases hsame

/-- The names of an actor are known, but for the set that it is bound to. -/
theorem appendActor_fails {encoder : Encoder} {actor : Node} (hnode : node ∈ root.preorder)
    (hactor : actor ∈ node.childrenOfKind .actor) (hkind : node.kind = .group) :
    FailsOnlyFor (IsDanglingSet resolver root node)
      ((emitterOf resolver config root).appendActor encoder actor) := by
  obtain ⟨hmem, hactorKind⟩ := Node.mem_preorder_of_mem_childrenOfKind hnode hactor
  have hnamed : actor.kind.hasInstanceName = true := by
    rw [hactorKind]
    rfl
  have hmedia : actor.kind ≠ .media := by
    rw [hactorKind]
    nofun
  refine (appendOpening_fails hmem hnamed).bind ?_
  rintro ⟨opened, info⟩ hopened
  obtain ⟨space, hspace, hinfo⟩ := exists_space_of_appendOpening hopened
  refine (appendBinding_fails hactor hkind).bind fun bound _ => ?_
  refine (appendProperties_fails hmem hspace hinfo hmedia).bind fun filled _ => ?_
  refine FailsOnlyFor.bind (.foldlM fun role hrole state => ?_) fun _ _ => .ok _
  obtain ⟨hrole, hroleKind⟩ := Node.mem_preorder_of_mem_childrenOfKind hmem hrole
  exact appendRole_fails hrole hroleKind

/-- The payload of an entity fails for its length only. -/
theorem payload_fails {emitter : Emitter} {classIndex : UInt32} {members : List Node}
    {encoder : Encoder} : FailsOnlyFor allowed (emitter.payload classIndex members encoder) := by
  unfold payload EntityPayload.build
  split
  · exact .ok _
  · exact .of_ne fun _ _ => nofun

/-- The file of a set fails for its length only. -/
theorem setFile_fails {emitter : Emitter} {classIndex : UInt32} {encoder : Encoder} :
    FailsOnlyFor allowed (emitter.setFile classIndex encoder) := by
  unfold setFile
  dsimp only
  split
  · exact .ok _
  · exact .of_ne fun _ _ => nofun

/-- The names of a group are known, but for the sets that its actors are bound to. -/
theorem group_fails (hnode : node ∈ root.preorder) (hkind : node.kind = .group) :
    FailsOnlyFor (IsDanglingSet resolver root node)
      ((emitterOf resolver config root).group node) := by
  refine (classOf_fails hnode).bind fun _ _ => ?_
  refine FailsOnlyFor.bind (.foldlM fun actor hactor state => ?_) fun _ _ => payload_fails
  exact appendActor_fails hnode hactor hkind

/-- The names of a scene are known. -/
theorem scene_fails (hnode : node ∈ root.preorder) (hkind : node.kind = .scene) :
    FailsOnlyFor allowed ((emitterOf resolver config root).scene node) := by
  have hmedia : node.kind ≠ .media := by
    rw [hkind]
    nofun
  refine (classOf_fails hnode).bind ?_
  rintro ⟨info, index⟩ hclass
  obtain ⟨space, hspace, hinfo⟩ := exists_space_of_classOf hclass
  refine (appendProperties_fails hnode hspace hinfo hmedia).bind fun _ _ => ?_
  refine FailsOnlyFor.bind (.foldlM fun group hgroup state => ?_) fun _ _ => payload_fails
  obtain ⟨hgroup, hgroupKind⟩ := Node.mem_preorder_of_mem_childrenOfKind hnode hgroup
  refine (appendOpening_fails hgroup ?_).bind fun _ _ => .ok _
  rw [hgroupKind]
  rfl

/-- The names of a set are known. -/
theorem set_fails (hnode : node ∈ root.preorder) (hkind : node.kind = .set) :
    FailsOnlyFor allowed ((emitterOf resolver config root).set node) := by
  have hnamed : node.kind.hasInstanceName = true := by
    rw [hkind]
    rfl
  have hmedia : node.kind ≠ .media := by
    rw [hkind]
    nofun
  refine (classOf_fails hnode).bind ?_
  rintro ⟨info, index⟩ hclass
  obtain ⟨space, hspace, hinfo⟩ := exists_space_of_classOf hclass
  dsimp only
  split
  · exact .of_ne fun _ _ => nofun
  · refine (instanceIndex_fails hnode hspace hinfo hnamed).bind fun _ _ => ?_
    exact (appendProperties_fails hnode hspace hinfo hmedia).bind fun _ _ => setFile_fails

section Media

variable {σ : Type} [FileAccess (StateM σ)]

/-- The reference to a file of a medium has no names. -/
theorem mediaReference_fails {emitter : Emitter} (source : MediaSource) :
    StepFailsOnlyFor allowed
      (emitter.mediaReference node source : ExceptT EmitFault (StateM σ) _) := by
  have hread (path : Path) : StepFailsOnlyFor allowed
      (liftM (FileAccess.read path : StateM σ _) : ExceptT EmitFault (StateM σ) _) := by
    intro before
    rcases hrun : (FileAccess.read path : StateM σ _) before with ⟨found, after⟩
    rw [run_lift_of_eq hrun]
    exact .ok found
  unfold mediaReference
  dsimp only
  split
  case' h_1 => split
  -- In every branch the kind, or the refusal of it, is followed by the same reading of the file.
  all_goals
    refine .bind (fun _ => ?_) fun kind => ?_
    · first
        | exact .ok _
        | exact .of_ne fun _ _ => nofun
    · split
      · refine .bind (hread _) fun found => ?_
        cases found with
        | error fault => exact fun _ => .of_ne fun _ _ => nofun
        | ok content => exact fun _ => .ok _
      · split
        · exact fun _ => .of_ne fun _ _ => nofun
        · exact fun _ => .ok _

/-- The class of a medium is known. -/
theorem media_fails (hnode : node ∈ root.preorder) :
    StepFailsOnlyFor allowed
      ((emitterOf resolver config root).media node : ExceptT EmitFault (StateM σ) _) := by
  refine .bind (fun _ => classOf_fails hnode) fun _ => ?_
  exact .bind (.mapM mediaReference_fails) fun _ _ => .mapError fun _ _ _ => nofun

/-- With the table of its tree, an entity of the tree is never refused for an unknown name but one: that
of a set below the root to which one of its actors is bound, when no node of the tree with a class
has this name. -/
theorem emit_fails_only_for_sets {node : Node} (hnode : node ∈ root.preorder) {before after : σ}
    {space : Namespace} {name : String}
    (h : ((emitterOf resolver config root).emit node : ExceptT EmitFault (StateM σ) Bytes) before =
      (.error (.symbol (.unknown space name)), after)) :
    space = .instances ∧ node.kind = .group ∧
      (∃ actor ∈ node.childrenOfKind .actor, actor.data.attribute? "set" = some name) ∧
      (∃ set ∈ root.childrenOfKind .set, set.name = name) ∧
      ∀ other ∈ root.preorder, other.kind.hasInstanceName = true →
        (resolver other).isSome = true → other.name ≠ name := by
  have hfails : StepFailsOnlyFor (IsDanglingSet resolver root node)
      ((emitterOf resolver config root).emit node : ExceptT EmitFault (StateM σ) Bytes) := by
    unfold emit
    split
    · rename_i hkind
      exact fun _ => group_fails hnode hkind
    · rename_i hkind
      exact fun _ => scene_fails hnode hkind
    · rename_i hkind
      exact fun _ => set_fails hnode hkind
    · exact media_fails hnode
    · exact fun _ => .of_ne fun _ _ => nofun
  have hdangling := hfails before space name (congrArg Prod.fst h)
  exact ⟨hdangling.space_eq, hdangling.kind_eq, hdangling.bound, hdangling.declared,
    hdangling.unnamed⟩

end Media

/-- A group whose actor is bound to a set without a class. -/
def boundGroup : Node :=
  .mk ⟨.group, "g", [("class", "G")], 0, [], []⟩
    [.mk ⟨.actor, "a", [("class", "A"), ("set", "x")], 0, [], []⟩ []]

/-- A tree with the group and the set. -/
def danglingSet : Node :=
  .mk ⟨.root, "r", [], 0, [], []⟩ [.mk ⟨.set, "x", [], 0, [], []⟩ [], boundGroup]

/-- The group is refused for the name of the set, which no node with a class has. -/
theorem emit_fails_only_for_sets_dangling :
    ((emitterOf .attributes .standard danglingSet).emit boundGroup :
        ExceptT EmitFault (StateM FileMap) Bytes) .empty =
      (.error (.symbol (.unknown .instances "x")), .empty) ∧
      boundGroup ∈ danglingSet.preorder ∧
      ∀ other ∈ danglingSet.preorder, other.kind.hasInstanceName = true →
        (ClassResolver.attributes other).isSome = true → other.name ≠ "x" := by
  have hnode : boundGroup ∈ danglingSet.preorder :=
    List.mem_cons_of_mem _ (List.mem_cons_of_mem _ (List.mem_cons_self ..))
  have hgroup : (emitterOf .attributes .standard danglingSet).group boundGroup =
      .error (.symbol (.unknown .instances "x")) := by rfl
  have h : ((emitterOf .attributes .standard danglingSet).emit boundGroup :
      ExceptT EmitFault (StateM FileMap) Bytes) .empty =
        (.error (.symbol (.unknown .instances "x")), .empty) := Prod.ext hgroup rfl
  obtain ⟨-, -, -, -, hunnamed⟩ := emit_fails_only_for_sets hnode h
  exact ⟨h, hnode, hunnamed⟩

end Emitter

end StageArchive
