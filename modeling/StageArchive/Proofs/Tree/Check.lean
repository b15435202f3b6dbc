import StageArchive.Arithmetic
import StageArchive.Tree.Check
/-!
# Names of entities

The names of a tree pass when each entity's can be the name of a file and no two entities of a kind
share one.
-/

namespace StageArchive.Node

/-- The kinds and names of the entities among some nodes. -/
def entityNames (nodes : List Node) : List (NodeKind × String) :=
  (nodes.filter (·.kind.isEntity)).map fun node => (node.kind, node.name)

/-- The name of an entity comes before those of the nodes after it. -/
theorem entityNames_cons {node : Node} (h : node.kind.isEntity) (nodes : List Node) :
    entityNames (node :: nodes) = (node.kind, node.name) :: entityNames nodes := by
  simp [entityNames, h]

/-- A node that is no entity adds no name. -/
theorem entityNames_cons_of_not {node : Node} (h : ¬ node.kind.isEntity) (nodes : List Node) :
    entityNames (node :: nodes) = entityNames nodes := by
  simp [entityNames, h]

/-- An entity passes when its name can be that of a file and is new, and the others then pass. -/
theorem nameFault?_cons {seen : List (NodeKind × String)} {node : Node} {nodes : List Node}
    (h : node.kind.isEntity) :
    nameFault? seen (node :: nodes) = none ↔
      isFileStem node.name ∧ (node.kind, node.name) ∉ seen ∧
        nameFault? ((node.kind, node.name) :: seen) nodes = none := by
  rw [nameFault?, if_neg (by simp [h])]
  by_cases hstem : isFileStem node.name
  · rw [if_neg (by simp [hstem])]
    by_cases hseen : (node.kind, node.name) ∈ seen
    · rw [if_pos (by simpa using hseen)]
      simp [hseen]
    · rw [if_neg (by simpa using hseen)]
      simp [hstem, hseen]
  · rw [if_pos (by simp [hstem])]
    simp [hstem]

/-- A node that is no entity passes. -/
theorem nameFault?_cons_of_not {seen : List (NodeKind × String)} {node : Node} {nodes : List Node}
    (h : ¬ node.kind.isEntity) : nameFault? seen (node :: nodes) = nameFault? seen nodes := by
  rw [nameFault?, if_pos (by simp [h])]

/-- Names differ from those that were seen and one more when they differ from both. -/
theorem forall_notMem_cons {name : NodeKind × String} {names seen : List (NodeKind × String)} :
    (∀ found ∈ names, found ∉ name :: seen) ↔ name ∉ names ∧ ∀ found ∈ names, found ∉ seen := by
  constructor
  · intro h
    refine ⟨fun hname => h name hname (List.mem_cons_self ..), ?_⟩
    intro found hfound hseen
    exact h found hfound (List.mem_cons_of_mem _ hseen)
  · intro h found hfound hcons
    obtain ⟨hname, hseen⟩ := h
    rcases List.mem_cons.mp hcons with rfl | hthere
    · exact hname hfound
    · exact hseen found hfound hthere

/-- No fault is found when the name of every entity can be that of a file, and the kinds and names
are new and different from each other. -/
theorem nameFault?_eq_none {seen : List (NodeKind × String)} {nodes : List Node} :
    nameFault? seen nodes = none ↔
      (∀ node ∈ nodes, node.kind.isEntity → isFileStem node.name) ∧
        (entityNames nodes).Nodup ∧ ∀ found ∈ entityNames nodes, found ∉ seen := by
  induction nodes generalizing seen with
  | nil => simp [nameFault?, entityNames]
  | cons node nodes ih =>
      -- Only entities have files, so only their names count.
      by_cases hentity : node.kind.isEntity
      · rw [nameFault?_cons hentity, ih, entityNames_cons hentity, List.forall_mem_cons,
          List.nodup_cons, List.forall_mem_cons, forall_notMem_cons]
        constructor
        · intro h
          obtain ⟨hstem, hnew, hstems, hnodup, hname, hnames⟩ := h
          exact ⟨⟨fun _ => hstem, hstems⟩, ⟨hname, hnodup⟩, hnew, hnames⟩
        · intro h
          obtain ⟨⟨hstem, hstems⟩, ⟨hname, hnodup⟩, hnew, hnames⟩ := h
          exact ⟨hstem hentity, hnew, hstems, hnodup, hname, hnames⟩
      · rw [nameFault?_cons_of_not hentity, ih, entityNames_cons_of_not hentity,
          List.forall_mem_cons]
        constructor
        · intro h
          obtain ⟨hstems, hothers⟩ := h
          exact ⟨⟨fun hkind => absurd hkind hentity, hstems⟩, hothers⟩
        · intro h
          obtain ⟨⟨-, hstems⟩, hothers⟩ := h
          exact ⟨hstems, hothers⟩

/-- The names of a tree pass when each entity's can be that of a file and no two of a kind share
one. -/
theorem checkNames_eq_ok {root : Node} :
    root.checkNames = .ok () ↔
      (∀ node ∈ root.preorder, node.kind.isEntity → isFileStem node.name) ∧
        (entityNames root.preorder).Nodup := by
  have hnone : root.checkNames = .ok () ↔ nameFault? [] root.preorder = none := by
    unfold checkNames
    cases nameFault? [] root.preorder with
    | none => exact ⟨fun _ => rfl, fun _ => rfl⟩
    | some fault => exact ⟨nofun, nofun⟩
  rw [hnone, nameFault?_eq_none]
  constructor
  · intro hparts
    obtain ⟨hstems, hnodup, -⟩ := hparts
    exact ⟨hstems, hnodup⟩
  · intro hparts
    obtain ⟨hstems, hnodup⟩ := hparts
    exact ⟨hstems, hnodup, fun _ _ => List.not_mem_nil⟩

/-- A name that can be that of a file is not empty, leads neither here nor upward and has no
slash. -/
theorem isFileStem_iff {name : String} :
    isFileStem name ↔ name ≠ "" ∧ name ≠ "." ∧ name ≠ ".." ∧ '/' ∉ name.toList := by
  simp [isFileStem, and_assoc]

/-- The descendants of a node come after it. -/
theorem mem_preorder_of_mem_descendants {root node : Node} (h : node ∈ root.descendants) :
    node ∈ root.preorder := by
  obtain ⟨data, children⟩ := root
  exact List.mem_cons_of_mem _ h

/-- Entities below the root differ in kind or name when the names of the tree pass. -/
theorem pairwise_of_checkNames {root : Node} (h : root.checkNames = .ok ()) :
    root.descendants.Pairwise fun node other =>
      node.kind.isEntity → other.kind.isEntity → (node.kind, node.name) ≠ (other.kind, other.name) := by
  obtain ⟨data, children⟩ := root
  have hnodup := (checkNames_eq_ok.mp h).2
  rw [entityNames, List.Nodup, List.pairwise_map, List.pairwise_filter] at hnodup
  exact (List.pairwise_cons.mp hnodup).2

/-- The names of the descendants of a kind differ when the names of the tree pass. -/
theorem nodup_names_of_checkNames {root : Node} (h : root.checkNames = .ok ()) {kind : NodeKind}
    (hkind : kind.isEntity) : ((root.descendantsOfKind kind).map (·.name)).Nodup := by
  rw [descendantsOfKind, List.Nodup, List.pairwise_map, List.pairwise_filter]
  refine (pairwise_of_checkNames h).imp ?_
  intro node other hdiffer hnode hother hname
  rw [decide_eq_true_iff] at hnode hother
  refine hdiffer (hnode ▸ hkind) (hother ▸ hkind) ?_
  rw [hnode, hother, hname]

end StageArchive.Node
