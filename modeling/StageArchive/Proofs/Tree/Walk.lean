import StageArchive.Tree.Node
/-!
# The nodes of a tree

A tree is walked in preorder. Whatever lies below a node of a tree is a node of the tree.
-/

namespace StageArchive.Node

/-- The nodes of several trees are those of each. -/
theorem preorderAll_eq_flatMap (nodes : List Node) : preorderAll nodes = nodes.flatMap preorder := by
  induction nodes with
  | nil => rfl
  | cons node nodes ih => rw [preorderAll, ih, List.flatMap_cons]

/-- A tree begins with its root. -/
theorem mem_preorder_self (node : Node) : node ∈ node.preorder := by
  obtain ⟨data, children⟩ := node
  exact List.mem_cons_self ..

mutual

/-- The nodes below a node of a tree are nodes of the tree. -/
theorem mem_preorder_trans {node other : Node} (hother : other ∈ node.preorder) :
    ∀ {root : Node}, node ∈ root.preorder → other ∈ root.preorder
  | .mk data children, h => by
      rcases List.mem_cons.mp h with rfl | h
      · exact hother
      · exact List.mem_cons_of_mem _ (mem_preorderAll_trans hother h)

/-- The nodes below a node of several trees are nodes of these trees. -/
theorem mem_preorderAll_trans {node other : Node} (hother : other ∈ node.preorder) :
    ∀ {roots : List Node}, node ∈ preorderAll roots → other ∈ preorderAll roots
  | [], h => nomatch h
  | root :: roots, h => by
      rcases List.mem_append.mp h with h | h
      · exact List.mem_append_left _ (mem_preorder_trans hother h)
      · exact List.mem_append_right _ (mem_preorderAll_trans hother h)

end

/-- A child of a kind is a node of every tree that its parent is a node of, and of that kind. -/
theorem mem_preorder_of_mem_childrenOfKind {root node child : Node} {kind : NodeKind}
    (hnode : node ∈ root.preorder) (h : child ∈ node.childrenOfKind kind) :
    child ∈ root.preorder ∧ child.kind = kind := by
  obtain ⟨hchild, hkind⟩ := List.mem_filter.mp h
  refine ⟨mem_preorder_trans ?_ hnode, of_decide_eq_true hkind⟩
  obtain ⟨data, children⟩ := node
  have hbelow : child ∈ preorderAll children := by
    rw [preorderAll_eq_flatMap]
    exact List.mem_flatMap.mpr ⟨child, hchild, mem_preorder_self child⟩
  exact List.mem_cons_of_mem _ hbelow

end StageArchive.Node
