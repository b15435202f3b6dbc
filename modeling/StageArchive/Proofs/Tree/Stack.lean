import StageArchive.Proofs.Tree.Walk
import Mathlib.Logic.Relation
/-!
# Walking a tree with a stack

A tree can be asked about its nodes without its being known what stands for a node: `TreeView` is what
it answers. A walk keeps the nodes that it has still to visit on a stack. It visits the node on top and
puts that node's children in its place, the last one first, so that the first child is on top.
`loop_iff` says that such a walk visits the nodes in preorder, whatever the visits do, and ends.
-/

namespace StageArchive

/-- What a tree answers about its nodes. -/
structure TreeView (ι : Type) where
  root : ι
  data : ι → NodeData
  children : ι → List ι

/-- A tree whose nodes stand for themselves. -/
def Node.view (root : Node) : TreeView Node :=
  ⟨root, Node.data, Node.children⟩

/-- A stack, listed from its top, after items are put on it one after another. -/
def stacked {α : Type} (stack items : List α) : List α :=
  items.foldl (fun stack item => item :: stack) stack

/-- Items that are put on a stack from the last one to the first lie there in their order. -/
theorem stacked_reverse {α : Type} (stack items : List α) :
    stacked stack items.reverse = items ++ stack := by
  rw [stacked, List.foldl_flip_cons_eq_append', List.reverse_reverse]

namespace TreeView

variable {ι σ ε : Type} {view : TreeView ι}

/-- What comes of a walk with a stack: it ends when the stack is empty or a visit fails. -/
inductive Loop (view : TreeView ι) (visit : σ → ι → Except ε σ) :
    σ → List ι → Except ε σ → Prop
  | empty (state : σ) : Loop view visit state [] (.ok state)
  | failed {state : σ} {fault : ε} {handle : ι} {stack : List ι}
      (hvisit : visit state handle = .error fault) :
      Loop view visit state (handle :: stack) (.error fault)
  | visited {state after : σ} {handle : ι} {stack : List ι} {outcome : Except ε σ}
      (hvisit : visit state handle = .ok after)
      (hothers : Loop view visit after (stacked stack (view.children handle).reverse) outcome) :
      Loop view visit state (handle :: stack) outcome

mutual

/-- What stands for a node shows a tree: the node's data and children are those of the tree's root. The
list has what stands for the nodes of the tree, in preorder. -/
inductive Shows (view : TreeView ι) : ι → Node → List ι → Prop
  | mk {handle : ι} {children : List Node} {handles : List ι}
      (h : ShowsAll view (view.children handle) children handles) :
      Shows view handle (.mk (view.data handle) children) (handle :: handles)

/-- What stands for several nodes shows a tree each. -/
inductive ShowsAll (view : TreeView ι) : List ι → List Node → List ι → Prop
  | nil : ShowsAll view [] [] []
  | cons {handle : ι} {node : Node} {stack first others : List ι} {nodes : List Node}
      (hnode : Shows view handle node first) (hothers : ShowsAll view stack nodes others) :
      ShowsAll view (handle :: stack) (node :: nodes) (first ++ others)

end

mutual

/-- What stands for the nodes of a tree has their data. -/
theorem Shows.map_data {handle : ι} {handles : List ι} :
    ∀ {node : Node}, view.Shows handle node handles →
      handles.map view.data = node.preorder.map Node.data
  | .mk _ _, .mk h => congrArg (view.data handle :: ·) h.map_data

/-- What stands for the nodes of several trees has their data. -/
theorem ShowsAll.map_data {stack handles : List ι} :
    ∀ {nodes : List Node}, view.ShowsAll stack nodes handles →
      handles.map view.data = (Node.preorderAll nodes).map Node.data
  | [], .nil => rfl
  | _ :: _, .cons hnode hothers => by
      rw [List.map_append, hnode.map_data, hothers.map_data, Node.preorderAll, List.map_append]

end

/-- Trees are shown one behind another. -/
theorem ShowsAll.append {stack others handles more : List ι} {nodes behind : List Node}
    (h : view.ShowsAll stack nodes handles) (hbehind : view.ShowsAll others behind more) :
    view.ShowsAll (stack ++ others) (nodes ++ behind) (handles ++ more) := by
  induction stack generalizing nodes handles with
  | nil =>
      cases h
      exact hbehind
  | cons handle stack ih =>
      cases h with
      | cons hnode hothers =>
          rw [List.append_assoc]
          exact .cons hnode (ih hothers)

mutual

/-- A node stands for itself, and so do the nodes below it. -/
theorem shows_view (root : Node) : ∀ node : Node, root.view.Shows node node node.preorder
  | .mk _ children => .mk (showsAll_view root children)

/-- Nodes stand for themselves, and so do the nodes below them. -/
theorem showsAll_view (root : Node) :
    ∀ nodes : List Node, root.view.ShowsAll nodes nodes (Node.preorderAll nodes)
  | [] => .nil
  | node :: nodes => .cons (shows_view root node) (showsAll_view root nodes)

end

/-- One thing is the child of another. -/
def IsChild (view : TreeView ι) (above below : ι) : Prop :=
  below ∈ view.children above

mutual

/-- From the root of a tree one comes to all of it by going from parents to children. -/
theorem Shows.reaches {handle other : ι} {handles : List ι} :
    ∀ {node : Node}, view.Shows handle node handles → other ∈ handles →
      Relation.ReflTransGen view.IsChild handle other
  | .mk _ _, .mk h, hother => by
      rcases List.mem_cons.mp hother with rfl | hbelow
      · exact .refl
      · obtain ⟨child, hchild, hreaches⟩ := h.reaches hbelow
        exact .head hchild hreaches

/-- From the roots of several trees one comes to all of them. -/
theorem ShowsAll.reaches {other : ι} {stack handles : List ι} :
    ∀ {nodes : List Node}, view.ShowsAll stack nodes handles → other ∈ handles →
      ∃ first ∈ stack, Relation.ReflTransGen view.IsChild first other
  | [], .nil, hother => nomatch hother
  | _ :: _, .cons hnode hothers, hother => by
      rcases List.mem_append.mp hother with hfirst | hbehind
      · exact ⟨_, List.mem_cons_self .., hnode.reaches hfirst⟩
      · obtain ⟨first, hfirst, hreaches⟩ := hothers.reaches hbehind
        exact ⟨first, List.mem_cons_of_mem _ hfirst, hreaches⟩

end

/-- Each of several roots shows a tree that is among theirs. -/
theorem ShowsAll.exists_shows {stack handles : List ι} {nodes : List Node} {first : ι}
    (h : view.ShowsAll stack nodes handles) (hfirst : first ∈ stack) :
    ∃ node below, view.Shows first node below ∧ below ⊆ handles := by
  induction stack generalizing nodes handles with
  | nil => cases hfirst
  | cons handle stack ih =>
      cases h with
      | cons hnode hothers =>
          rcases List.mem_cons.mp hfirst with rfl | hbehind
          · exact ⟨_, _, hnode, List.subset_append_left ..⟩
          · obtain ⟨node, below, hshows, hsubset⟩ := ih hothers hbehind
            exact ⟨node, below, hshows, List.subset_append_of_subset_right _ hsubset⟩

/-- What one comes to from the root of a tree is in the tree. -/
theorem Shows.mem_of_reaches {handle other : ι} {node : Node} {handles : List ι}
    (h : view.Shows handle node handles)
    (hreaches : Relation.ReflTransGen view.IsChild handle other) : other ∈ handles := by
  induction hreaches using Relation.ReflTransGen.head_induction_on generalizing node handles with
  | refl =>
      cases h
      exact List.mem_cons_self ..
  | head hchild _ ih =>
      cases h with
      | mk hbelow =>
          obtain ⟨_, _, hshows, hsubset⟩ := hbelow.exists_shows hchild
          exact List.mem_cons_of_mem _ (hsubset (ih hshows))

/-- The descendants of a node are what one comes to by going from parents to children. -/
theorem ShowsAll.mem_iff {handle other : ι} {nodes : List Node} {handles : List ι}
    (h : view.ShowsAll (view.children handle) nodes handles) :
    other ∈ handles ↔ Relation.TransGen view.IsChild handle other := by
  rw [Relation.TransGen.head'_iff]
  constructor
  · exact h.reaches
  · rintro ⟨child, hchild, hreaches⟩
    obtain ⟨_, _, hshows, hsubset⟩ := h.exists_shows hchild
    exact hsubset (hshows.mem_of_reaches hreaches)

/-- Where a node is taken off a stack and its children are put there, what is left to visit is what was left
behind the node. -/
theorem ShowsAll.exists_behind {handle : ι} {stack handles : List ι} {nodes : List Node}
    (h : view.ShowsAll (handle :: stack) nodes handles) :
    ∃ below behind, handles = handle :: behind ∧
      view.ShowsAll (view.children handle ++ stack) below behind := by
  cases h with
  | cons hnode hothers =>
      cases hnode with
      | mk hchildren => exact ⟨_, _, rfl, hchildren.append hothers⟩

/-- A walk with a stack visits the nodes below those on the stack in preorder, up to the first visit that
fails. -/
theorem loop_iff {visit : σ → ι → Except ε σ} {state : σ} {stack handles : List ι}
    {nodes : List Node} {outcome : Except ε σ} (h : view.ShowsAll stack nodes handles) :
    view.Loop visit state stack outcome ↔ handles.foldlM visit state = outcome := by
  -- Every visit leaves one node less to visit, while the stack may grow.
  induction handles generalizing state stack nodes with
  | nil =>
      cases stack with
      | nil =>
          constructor
          · intro hloop
            cases hloop
            rfl
          · rintro rfl
            exact .empty state
      | cons handle stack =>
          obtain ⟨_, _, hnone, -⟩ := h.exists_behind
          cases hnone
  | cons first handles ih =>
      cases stack with
      | nil => cases h
      | cons handle stack =>
          obtain ⟨below, behind, hhandles, hbehind⟩ := h.exists_behind
          cases hhandles
          rw [← stacked_reverse] at hbehind
          rw [List.foldlM_cons]
          cases hvisit : visit state first with
          | error fault =>
              constructor
              · intro hloop
                cases hloop with
                | failed hfailed => exact hvisit.symm.trans hfailed
                | visited hvisited => cases hvisit.symm.trans hvisited
              · rintro rfl
                exact .failed hvisit
          | ok after =>
              show _ ↔ handles.foldlM visit after = outcome
              rw [← ih hbehind]
              constructor
              · intro hloop
                cases hloop with
                | failed hfailed => cases hvisit.symm.trans hfailed
                | visited hvisited hothers =>
                    cases hvisit.symm.trans hvisited
                    exact hothers
              · exact .visited hvisit

/-- Visits that only look at what is authored about nodes come to the same for everything that shows a
tree. -/
theorem loop_data_iff (visit : σ → NodeData → Except ε σ) {state : σ} {root : Node}
    {handles : List ι} {outcome : Except ε σ} (h : view.Shows view.root root handles) :
    view.Loop (fun state handle => visit state (view.data handle)) state [view.root] outcome ↔
      root.preorder.foldlM (fun state node => visit state node.data) state = outcome := by
  have hstack : view.ShowsAll [view.root] [root] (handles ++ []) := .cons h .nil
  rw [loop_iff hstack, List.append_nil, ← List.foldlM_map, h.map_data, List.foldlM_map]

/-- A walk with a stack, which starts at the children of a node and collects what is of a kind, ends with a
list. No visit fails. -/
def FindsKind (view : TreeView ι) (above : ι) (kind : NodeKind) (found : List ι) : Prop :=
  view.Loop (ε := Empty)
    (fun found handle =>
      .ok (if (view.data handle).kind = kind then found ++ [handle] else found))
    [] (view.children above) (.ok found)

/-- Collecting what satisfies a condition, one after the other, leaves it in order. -/
theorem foldl_collect (condition : ι → Prop) [DecidablePred condition] (found handles : List ι) :
    handles.foldl (fun found handle => if condition handle then found ++ [handle] else found) found =
      found ++ handles.filter condition := by
  induction handles generalizing found with
  | nil => exact (List.append_nil _).symm
  | cons handle handles ih =>
      rw [List.foldl_cons, ih]
      by_cases h : condition handle
      · rw [if_pos h, List.filter_cons_of_pos (by simpa using h), List.append_assoc]
        rfl
      · rw [if_neg h, List.filter_cons_of_neg (by simpa using h)]

/-- The walk finds the descendants of the kind, in preorder. -/
theorem findsKind_iff {above : ι} {nodes : List Node} {handles found : List ι} {kind : NodeKind}
    (h : view.ShowsAll (view.children above) nodes handles) :
    view.FindsKind above kind found ↔
      found = handles.filter fun handle => (view.data handle).kind = kind := by
  have hvisits : handles.foldlM (m := Except Empty)
      (fun found handle =>
        .ok (if (view.data handle).kind = kind then found ++ [handle] else found)) [] =
      .ok (handles.filter fun handle => (view.data handle).kind = kind) :=
    (List.foldlM_pure ..).trans (congrArg Except.ok (foldl_collect _ [] handles))
  rw [FindsKind, loop_iff h, hvisits, Except.ok.injEq]
  exact eq_comm

end TreeView

end StageArchive
