import StageArchive.Proofs.Outcome
import StageArchive.Proofs.Path
import StageArchive.Proofs.Tree.Check
import StageArchive.Proofs.Tree.Stack
/-!
# Which names pass

A name can be that of a file when a walk along it, taken as a path, meets nothing but that name. A tree is
refused for the first entity, in preorder, whose name is no such name or is that of an earlier entity of
the same kind. `checkNames_eq_error` says so, and `checksNames_iff` that a walk with a stack refuses the
same trees for the same faults.
-/

namespace StageArchive

namespace Path

/-- What a walk along a path meets. -/
inductive Component where
  | rootDirectory
  | currentDirectory
  | parentDirectory
  | normal (name : String)
  deriving DecidableEq, Repr

/-- What a part of a path that names something stands for. -/
def Component.ofPart (part : String) : Component :=
  if part = ".." then .parentDirectory else .normal part

/-- What a walk along a path meets, in order. Slashes only separate, beside one at the start, and single
dots count for nothing, beside one at the start. -/
def components (path : Path) : List Component :=
  (if path.isAbsolute then [.rootDirectory]
    else if path.parts.head? = some "." then [.currentDirectory] else []) ++
    (path.parts.filter (!isIdle ·)).map Component.ofPart

/-- A name is nothing but a name: it is not empty, leads neither here nor upward and has no slash. -/
def IsName (name : String) : Prop :=
  name ≠ "" ∧ name ≠ "." ∧ name ≠ ".." ∧ '/' ∉ name.toList

/-- A part that is a name stands for that name. -/
theorem Component.ofPart_eq_normal {part name : String} :
    Component.ofPart part = .normal name ↔ part ≠ ".." ∧ part = name := by
  unfold ofPart
  by_cases hup : part = ".."
  · simp [hup]
  · simp [hup]

/-- A walk along what is nothing but a name meets that name alone. -/
theorem components_eq_normal_iff {name : String} :
    components ⟨name⟩ = [.normal name] ↔ IsName name := by
  constructor
  · intro h
    have hnamed : ((parts ⟨name⟩).filter (!isIdle ·)).map Component.ofPart = [.normal name] := by
      unfold components at h
      split at h
      · cases h
      · split at h
        · cases h
        · exact h
    obtain ⟨part, hpart, hnormal⟩ := List.map_eq_singleton_iff.mp hnamed
    obtain ⟨hup, rfl⟩ := Component.ofPart_eq_normal.mp hnormal
    obtain ⟨hmem, hidle⟩ := List.mem_filter.mp (hpart ▸ List.mem_singleton_self part)
    have hempty : part ≠ "" ∧ part ≠ "." := by simpa [isIdle] using hidle
    exact ⟨hempty.1, hempty.2, hup, notMem_of_mem_parts hmem⟩
  · rintro ⟨hempty, hdot, hup, hslash⟩
    have hrelative : isAbsolute ⟨name⟩ = false := by
      rw [isAbsolute, beq_eq_false_iff_ne]
      exact fun hhead => hslash (List.mem_of_head? hhead)
    have hnormal := Component.ofPart_eq_normal.mpr ⟨hup, Eq.refl name⟩
    simp [components, parts_of_notMem hslash, hrelative, isIdle, hempty, hdot, hnormal]

end Path

/-- What can be the name of a file is nothing but a name. -/
theorem isFileStem_iff_components {name : String} :
    isFileStem name ↔ Path.components ⟨name⟩ = [.normal name] :=
  Node.isFileStem_iff.trans Path.components_eq_normal_iff.symm

/-- The names of the entities among some nodes pass: each is nothing but a name, and no two entities of a
kind share one. -/
structure NamesPass (nodes : List Node) : Prop where
  plain : ∀ node ∈ nodes, node.kind.isEntity → Path.IsName node.name
  apart : nodes.Pairwise fun node other =>
    node.kind.isEntity → node.kind = other.kind → node.name ≠ other.name

namespace Node

/-- Entities differ in kind or name when those of a kind have different names. -/
theorem nodup_entityNames_iff {nodes : List Node} :
    (entityNames nodes).Nodup ↔ nodes.Pairwise fun node other =>
      node.kind.isEntity → node.kind = other.kind → node.name ≠ other.name := by
  rw [entityNames, List.Nodup, List.pairwise_map, List.pairwise_filter]
  refine iff_of_eq (congrArg (nodes.Pairwise ·) (funext fun node => funext fun other => propext ?_))
  rw [Ne, Prod.mk.injEq, not_and]
  exact ⟨fun h hnode hkind => h hnode (hkind ▸ hnode) hkind, fun h hnode _ => h hnode⟩

/-- No fault is found in names that pass. -/
theorem nameFault?_nil_eq_none {nodes : List Node} :
    nameFault? [] nodes = none ↔ NamesPass nodes := by
  simp only [nameFault?_eq_none, isFileStem_iff, nodup_entityNames_iff]
  constructor
  · rintro ⟨hplain, hapart, -⟩
    exact ⟨hplain, hapart⟩
  · rintro ⟨hplain, hapart⟩
    exact ⟨hplain, hapart, fun _ _ => List.not_mem_nil⟩

/-- Visits a node of which the kind and the name are looked at: the kinds and names of the entities that were
visited, and this one's. -/
def visitName (seen : List (NodeKind × String)) (data : NodeData) :
    Except TreeFault (List (NodeKind × String)) :=
  if !data.kind.isEntity then .ok seen
  else if Path.components ⟨data.name⟩ ≠ [.normal data.name] then
    .error (.unsafeName data.kind data.name)
  else if (data.kind, data.name) ∈ seen then .error (.duplicateName data.kind data.name)
  else .ok ((data.kind, data.name) :: seen)

/-- Why an entity is refused for its name: it is not only a name, or it is and was seen. -/
def NameFault (seen : List (NodeKind × String)) (node : Node) (fault : TreeFault) : Prop :=
  ¬ Path.IsName node.name ∧ fault = .unsafeName node.kind node.name ∨
    Path.IsName node.name ∧ (node.kind, node.name) ∈ seen ∧ fault = .duplicateName node.kind node.name

/-- A visit of a node that is no entity changes nothing. -/
theorem visitName_of_not {seen : List (NodeKind × String)} {node : Node}
    (h : ¬ node.kind.isEntity) : visitName seen node.data = .ok seen := by
  show (if !node.kind.isEntity then _ else _) = _
  rw [if_pos (by simpa using h)]

/-- A visit of an entity adds its kind and name to those that were seen, when it may. -/
theorem visitName_of_entity {seen : List (NodeKind × String)} {node : Node} (h : node.kind.isEntity) :
    visitName seen node.data =
      if isFileStem node.name then
        if (node.kind, node.name) ∈ seen then .error (.duplicateName node.kind node.name)
        else .ok ((node.kind, node.name) :: seen)
      else .error (.unsafeName node.kind node.name) := by
  show (if !node.kind.isEntity then _
    else if Path.components ⟨node.name⟩ ≠ [.normal node.name] then _ else _) = _
  rw [if_neg (by simpa using h)]
  by_cases hstem : isFileStem node.name
  · rw [if_neg (not_not_intro (isFileStem_iff_components.mp hstem)), if_pos hstem]
    rfl
  · rw [if_pos (mt isFileStem_iff_components.mpr hstem), if_neg hstem]
    rfl

/-- A visit fails for an entity whose name is not only a name or was seen. -/
theorem visitName_eq_error {seen : List (NodeKind × String)} {node : Node} {fault : TreeFault} :
    visitName seen node.data = .error fault ↔
      node.kind.isEntity ∧ NameFault seen node fault := by
  have hname : Path.IsName node.name ↔ isFileStem node.name := isFileStem_iff.symm
  rw [NameFault, hname]
  by_cases hentity : node.kind.isEntity
  · rw [visitName_of_entity hentity]
    by_cases hstem : isFileStem node.name
    · by_cases hseen : (node.kind, node.name) ∈ seen
      · simp [hentity, hstem, hseen, eq_comm]
      · simp [hentity, hstem, hseen]
    · simp [hentity, hstem, eq_comm]
  · rw [visitName_of_not hentity]
    exact ⟨nofun, fun h => absurd h.1 hentity⟩

/-- Visiting nodes in order fails for the fault that is found in their names, or sees all entities. -/
theorem foldlM_visitName (seen : List (NodeKind × String)) (nodes : List Node) :
    nodes.foldlM (fun seen node => visitName seen node.data) seen =
      match nameFault? seen nodes with
      | some fault => .error fault
      | none => .ok ((entityNames nodes).reverse ++ seen) := by
  induction nodes generalizing seen with
  | nil => rfl
  | cons node nodes ih =>
      rw [List.foldlM_cons]
      by_cases hentity : node.kind.isEntity
      · have hthere : ¬ (!node.kind.isEntity) = true := by
          simpa using hentity
        rw [visitName_of_entity hentity, nameFault?, if_neg hthere, entityNames_cons hentity,
          List.reverse_cons, List.append_assoc]
        by_cases hstem : isFileStem node.name
        · by_cases hseen : (node.kind, node.name) ∈ seen
          · rw [if_pos hstem, if_pos hseen, if_neg (by simp [hstem]),
              if_pos (List.contains_iff_mem.mpr hseen)]
            rfl
          · rw [if_pos hstem, if_neg hseen, if_neg (by simp [hstem]),
              if_neg (mt List.contains_iff_mem.mp hseen)]
            exact ih _
        · rw [if_neg hstem, if_pos (by simpa using hstem)]
          rfl
      · rw [visitName_of_not hentity, nameFault?_cons_of_not hentity,
          entityNames_cons_of_not hentity]
        exact ih seen

/-- The names of a tree pass or fail as the visits of its nodes in preorder do. -/
theorem checkNames_eq_map (root : Node) :
    root.checkNames = (root.preorder.foldlM (fun seen node => visitName seen node.data) []).map
      fun _ => () := by
  rw [foldlM_visitName, checkNames]
  cases nameFault? [] root.preorder <;> rfl

/-- Visiting nodes in order succeeds when their names pass, and sees their entities. -/
theorem foldlM_visitName_eq_ok {nodes : List Node} {seen : List (NodeKind × String)} :
    nodes.foldlM (fun seen node => visitName seen node.data) [] = .ok seen ↔
      NamesPass nodes ∧ seen = (entityNames nodes).reverse := by
  rw [foldlM_visitName, ← nameFault?_nil_eq_none, List.append_nil]
  cases nameFault? [] nodes with
  | none =>
      constructor
      · intro h
        cases h
        exact ⟨rfl, rfl⟩
      · rintro ⟨-, rfl⟩
        rfl
  | some fault => exact ⟨nofun, fun h => nomatch h.1⟩

/-- Where some nodes have an entity of a kind and a name. -/
theorem mem_entityNames {nodes : List Node} {kind : NodeKind} {name : String} (h : kind.isEntity) :
    (kind, name) ∈ entityNames nodes ↔ ∃ node ∈ nodes, node.kind = kind ∧ node.name = name := by
  simp only [entityNames, List.mem_map, List.mem_filter, Prod.mk.injEq, and_assoc]
  refine exists_congr fun node => and_congr_right fun _ => ?_
  exact ⟨And.right, fun hsame => ⟨hsame.1 ▸ h, hsame⟩⟩

/-- The names of a tree pass when those of its nodes do. -/
theorem checkNames_eq_ok_iff {root : Node} : root.checkNames = .ok () ↔ NamesPass root.preorder := by
  rw [checkNames_eq_map, map_eq_ok]
  simp only [foldlM_visitName_eq_ok, and_true, exists_and_left, exists_eq]

/-- A tree is refused for the name of an entity when the names of the nodes before it pass and its own is not
only a name, or is that of an entity of its kind before it. -/
theorem checkNames_eq_error {root : Node} {fault : TreeFault} :
    root.checkNames = .error fault ↔ ∃ before node after, root.preorder = before ++ node :: after ∧
      NamesPass before ∧ node.kind.isEntity ∧ NameFault (entityNames before) node fault := by
  rw [checkNames_eq_map, map_eq_error, foldlM_eq_error]
  simp only [foldlM_visitName_eq_ok, visitName_eq_error, NameFault, and_assoc, exists_and_left,
    exists_eq_left, List.mem_reverse]

end Node

namespace TreeView

variable {ι : Type}

/-- A walk with a stack starts at the root, looks at the name of each node and ends, when all names pass or
one is refused. -/
def ChecksNames (view : TreeView ι) (result : Except TreeFault Unit) : Prop :=
  ∃ outcome : Except TreeFault (List (NodeKind × String)), outcome.map (fun _ => ()) = result ∧
    view.Loop (fun seen handle => Node.visitName seen (view.data handle)) [] [view.root] outcome

/-- A walk with a stack checks the names of the tree. -/
theorem checksNames_iff {view : TreeView ι} {root : Node} {handles : List ι}
    (h : view.Shows view.root root handles) {result : Except TreeFault Unit} :
    view.ChecksNames result ↔ result = root.checkNames := by
  rw [ChecksNames, Node.checkNames_eq_map]
  simp only [loop_data_iff Node.visitName h]
  constructor
  · rintro ⟨_, rfl, rfl⟩
    rfl
  · rintro rfl
    exact ⟨_, rfl, rfl⟩

end TreeView

end StageArchive
