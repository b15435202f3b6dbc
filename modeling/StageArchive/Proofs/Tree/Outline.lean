import StageArchive.Proofs.Tree.Stack
/-!
# Numbers of nodes

The nodes of a tree are numbered in preorder, and an entry of an outline has the numbers of a node's
parent and of its children. The children of an entry are entries that have it as their parent
(`exists_of_mem_children`), and every entry but the first is a child of its parent (`exists_parent`).
-/

namespace StageArchive.Node

/-- The number of nodes of several trees. -/
def sizeAll (nodes : List Node) : Nat :=
  (preorderAll nodes).length

/-- A tree has its root and the nodes below it. -/
theorem size_mk (data : NodeData) (children : List Node) :
    (mk data children).size = sizeAll children + 1 :=
  rfl

/-- Several trees have the nodes of the first and those of the others. -/
theorem sizeAll_cons (node : Node) (nodes : List Node) :
    sizeAll (node :: nodes) = node.size + sizeAll nodes := by
  rw [sizeAll, preorderAll, List.length_append]
  rfl

mutual

/-- The entries of a tree have its nodes in preorder. -/
theorem map_node_outlineFrom (number : Nat) (parent : Option Nat) :
    ∀ node : Node, (outlineFrom number parent node).map (·.node) = node.preorder
  | .mk data children => congrArg (mk data children :: ·) (map_node_outlineAll (number + 1) number children)

/-- The entries of several trees have their nodes in preorder. -/
theorem map_node_outlineAll (first parent : Nat) :
    ∀ nodes : List Node, (outlineAll first parent nodes).map (·.node) = preorderAll nodes
  | [] => rfl
  | node :: nodes => by
      rw [outlineAll, List.map_append, map_node_outlineFrom, map_node_outlineAll, preorderAll]

end

mutual

/-- The entries of a tree are numbered one after another. -/
theorem map_number_outlineFrom (number : Nat) (parent : Option Nat) :
    ∀ node : Node, (outlineFrom number parent node).map (·.number) = List.range' number node.size
  | .mk data children => by
      rw [outlineFrom, List.map_cons, map_number_outlineAll, size_mk, List.range'_succ]

/-- The entries of several trees are numbered one after another. -/
theorem map_number_outlineAll (first parent : Nat) :
    ∀ nodes : List Node,
      (outlineAll first parent nodes).map (·.number) = List.range' first (sizeAll nodes)
  | [] => rfl
  | node :: nodes => by
      rw [outlineAll, List.map_append, map_number_outlineFrom, map_number_outlineAll, sizeAll_cons,
        ← List.range'_append_1]

end

/-- An outline has an entry for each node. -/
theorem length_outlineFrom (number : Nat) (parent : Option Nat) (node : Node) :
    (outlineFrom number parent node).length = node.size := by
  rw [← List.length_map (·.node), map_node_outlineFrom]
  rfl

mutual

/-- The children of an entry are numbers of entries that have it as their parent. -/
theorem exists_of_mem_children {number : Nat} {parent : Option Nat} {child : Nat} :
    ∀ {node : Node} {entry : OutlineEntry}, entry ∈ outlineFrom number parent node →
      child ∈ entry.children → ∃ other ∈ outlineFrom number parent node,
        other.number = child ∧ other.parent = some entry.number
  | .mk data children, entry, hentry, hchild => by
      rcases List.mem_cons.mp hentry with rfl | hbelow
      · obtain ⟨other, hother, hsame⟩ := exists_of_mem_siblingNumbers number hchild
        exact ⟨other, List.mem_cons_of_mem _ hother, hsame⟩
      · obtain ⟨other, hother, hsame⟩ := exists_of_mem_children_all hbelow hchild
        exact ⟨other, List.mem_cons_of_mem _ hother, hsame⟩

/-- The children of an entry of several trees are numbers of entries that have it as their parent. -/
theorem exists_of_mem_children_all {first parent child : Nat} :
    ∀ {nodes : List Node} {entry : OutlineEntry}, entry ∈ outlineAll first parent nodes →
      child ∈ entry.children → ∃ other ∈ outlineAll first parent nodes,
        other.number = child ∧ other.parent = some entry.number
  | node :: nodes, entry, hentry, hchild => by
      rcases List.mem_append.mp hentry with hfirst | hothers
      · obtain ⟨other, hother, hsame⟩ := exists_of_mem_children hfirst hchild
        exact ⟨other, List.mem_append_left _ hother, hsame⟩
      · obtain ⟨other, hother, hsame⟩ := exists_of_mem_children_all hothers hchild
        exact ⟨other, List.mem_append_right _ hother, hsame⟩

/-- The numbers of siblings are those of entries that have the given parent. -/
theorem exists_of_mem_siblingNumbers {first : Nat} (parent : Nat) {child : Nat} :
    ∀ {nodes : List Node}, child ∈ siblingNumbers first nodes →
      ∃ other ∈ outlineAll first parent nodes, other.number = child ∧ other.parent = some parent
  | .mk data children :: nodes, hchild => by
      rcases List.mem_cons.mp hchild with rfl | hothers
      · exact ⟨_, List.mem_append_left _ (List.mem_cons_self ..), rfl, rfl⟩
      · obtain ⟨other, hother, hsame⟩ := exists_of_mem_siblingNumbers parent hothers
        exact ⟨other, List.mem_append_right _ hother, hsame⟩

end

mutual

/-- Every entry of a tree but the first is among the children of the entry that it has as its parent. -/
theorem exists_parent {number : Nat} {parent : Option Nat} :
    ∀ {node : Node} {entry : OutlineEntry}, entry ∈ outlineFrom number parent node →
      entry.number = number ∧ entry.parent = parent ∨ ∃ above ∈ outlineFrom number parent node,
        entry.parent = some above.number ∧ entry.number ∈ above.children
  | .mk data children, entry, hentry => by
      rcases List.mem_cons.mp hentry with rfl | hbelow
      · exact .inl ⟨rfl, rfl⟩
      · rcases exists_parent_all hbelow with ⟨hparent, hchild⟩ | ⟨above, habove, hsame⟩
        · exact .inr ⟨_, List.mem_cons_self .., hparent, hchild⟩
        · exact .inr ⟨above, List.mem_cons_of_mem _ habove, hsame⟩

/-- Every entry of several trees is that of a sibling, or is among the children of the entry that it has as
its parent. -/
theorem exists_parent_all {first parent : Nat} :
    ∀ {nodes : List Node} {entry : OutlineEntry}, entry ∈ outlineAll first parent nodes →
      entry.parent = some parent ∧ entry.number ∈ siblingNumbers first nodes ∨
        ∃ above ∈ outlineAll first parent nodes,
          entry.parent = some above.number ∧ entry.number ∈ above.children
  | node :: nodes, entry, hentry => by
      rcases List.mem_append.mp hentry with hfirst | hothers
      · rcases exists_parent hfirst with ⟨hnumber, hparent⟩ | ⟨above, habove, hsame⟩
        · exact .inl ⟨hparent, hnumber ▸ List.mem_cons_self ..⟩
        · exact .inr ⟨above, List.mem_append_left _ habove, hsame⟩
      · rcases exists_parent_all hothers with ⟨hparent, hchild⟩ | ⟨above, habove, hsame⟩
        · exact .inl ⟨hparent, List.mem_cons_of_mem _ hchild⟩
        · exact .inr ⟨above, List.mem_append_right _ habove, hsame⟩

end

mutual

/-- The entries of a node of a tree and of its descendants follow one another. -/
theorem exists_block {number : Nat} {parent : Option Nat} :
    ∀ {node : Node} {entry : OutlineEntry}, entry ∈ outlineFrom number parent node →
      ∃ before after, outlineFrom number parent node =
        before ++ outlineFrom entry.number entry.parent entry.node ++ after
  | .mk data children, entry, hentry => by
      rcases List.mem_cons.mp hentry with rfl | hbelow
      · exact ⟨[], [], (List.append_nil _).symm⟩
      · obtain ⟨before, after, hblock⟩ := exists_block_all hbelow
        exact ⟨_ :: before, after, congrArg (List.cons _) hblock⟩

/-- The entries of a node of several trees and of its descendants follow one another. -/
theorem exists_block_all {first parent : Nat} :
    ∀ {nodes : List Node} {entry : OutlineEntry}, entry ∈ outlineAll first parent nodes →
      ∃ before after, outlineAll first parent nodes =
        before ++ outlineFrom entry.number entry.parent entry.node ++ after
  | node :: nodes, entry, hentry => by
      rw [outlineAll]
      rcases List.mem_append.mp hentry with hfirst | hothers
      · obtain ⟨before, after, hblock⟩ := exists_block hfirst
        exact ⟨before, after ++ _, by rw [hblock, List.append_assoc (before ++ _)]⟩
      · obtain ⟨before, after, hblock⟩ := exists_block_all hothers
        exact ⟨_ ++ before, after, by rw [hblock, List.append_assoc, List.append_assoc, List.append_assoc]⟩

end

section Outline

variable {root : Node} {entry other : OutlineEntry}

/-- An entry is where its number says. -/
theorem getElem?_outline_eq_some {place : Nat} :
    root.outline[place]? = some entry ↔ entry ∈ root.outline ∧ entry.number = place := by
  have hnumber {place : Nat} {entry : OutlineEntry} (h : root.outline[place]? = some entry) :
      entry.number = place := by
    have hmap : (root.outline.map (·.number))[place]? = some entry.number := by
      rw [List.getElem?_map, h]
      rfl
    rw [outline, map_number_outlineFrom] at hmap
    obtain ⟨hplace, hsame⟩ := List.getElem?_eq_some_iff.mp hmap
    rw [← hsame, List.getElem_range', Nat.zero_add, Nat.one_mul]
  constructor
  · intro h
    exact ⟨List.mem_of_getElem? h, hnumber h⟩
  · rintro ⟨hentry, rfl⟩
    obtain ⟨place, hplace⟩ := List.mem_iff_getElem?.mp hentry
    rwa [hnumber hplace]

/-- There are fewer numbers before that of an entry than nodes. -/
theorem number_lt_size (hentry : entry ∈ root.outline) : entry.number < root.size := by
  have hplace := getElem?_outline_eq_some.mpr ⟨hentry, rfl⟩
  rw [← length_outlineFrom 0 none root]
  exact (List.getElem?_eq_some_iff.mp hplace).1

/-- Entries of an outline with one number are equal. -/
theorem eq_of_number (hentry : entry ∈ root.outline) (hother : other ∈ root.outline)
    (h : entry.number = other.number) : entry = other :=
  Option.some_inj.mp ((getElem?_outline_eq_some.mpr ⟨hentry, h⟩).symm.trans
    (getElem?_outline_eq_some.mpr ⟨hother, rfl⟩))

/-- The children of an entry are numbered behind it, each behind the descendants of those before. -/
theorem children_eq (hentry : entry ∈ root.outline) :
    entry.children = siblingNumbers (entry.number + 1) entry.node.children := by
  obtain ⟨before, after, hblock⟩ := exists_block hentry
  obtain ⟨number, ⟨data, children⟩, parent, numbers⟩ := entry
  have hfirst : (⟨number, .mk data children, parent, siblingNumbers (number + 1) children⟩ :
      OutlineEntry) ∈ root.outline := by
    rw [outline, hblock]
    exact List.mem_append_left _ (List.mem_append_right _ (List.mem_cons_self ..))
  exact congrArg OutlineEntry.children (eq_of_number hentry hfirst rfl)

/-- The nodes of a tree have their numbers in preorder. -/
theorem exists_around (hentry : entry ∈ root.outline) :
    ∃ before after, root.preorder = before ++ entry.node.preorder ++ after ∧
      before.length = entry.number := by
  obtain ⟨before, after, hblock⟩ := exists_block hentry
  have hnodes := congrArg (List.map (·.node)) hblock
  rw [map_node_outlineFrom, List.map_append, List.map_append, map_node_outlineFrom] at hnodes
  refine ⟨before.map (·.node), after.map (·.node), hnodes, ?_⟩
  obtain ⟨number, ⟨data, children⟩, parent, numbers⟩ := entry
  have hplace : root.outline[before.length]? =
      some ⟨number, .mk data children, parent, siblingNumbers (number + 1) children⟩ := by
    rw [outline, hblock, List.append_assoc, List.getElem?_append_right (Nat.le_refl _), Nat.sub_self]
    rfl
  rw [List.length_map, ← (getElem?_outline_eq_some.mp hplace).2]

end Outline

/-- Siblings are where their numbers say. -/
theorem map_siblingNumbers {nodes : List Node} {before after : List Node} :
    (siblingNumbers before.length nodes).map ((before ++ preorderAll nodes ++ after)[·]?) =
      nodes.map some := by
  induction nodes generalizing before with
  | nil => rfl
  | cons node nodes ih =>
      have hothers := @ih (before ++ node.preorder)
      rw [List.length_append, List.append_assoc before] at hothers
      rw [siblingNumbers, preorderAll, List.map_cons, List.map_cons]
      refine congrArg₂ List.cons ?_ hothers
      obtain ⟨data, children⟩ := node
      rw [List.append_assoc, List.getElem?_append_right (Nat.le_refl _), Nat.sub_self]
      rfl

end StageArchive.Node
