import StageArchive.Proofs.Tree.Names
import StageArchive.Proofs.Tree.Outline
/-!
# Trees as lists of cells

A tree is flattened into an arena: a list with a cell for each node, which has the node's data and the
numbers of its parent and children. A node's cell is put down before its children are, and gets the
number of a child when the child's own cells are there. A number is a word, cut from the length that the
arena has when the cell is put down, so that it says where the cell is as long as a word counts the cells.

`map_core_push` says what is put down whatever the size of the tree, and when a tree is refused.
`push_eq` says what the arena is when a word counts the nodes, and `build_faithful` that what is built is
then the outline of the tree.
-/

namespace StageArchive

/-- What an arena has about a node. -/
structure Cell where
  data : NodeData
  parent : Option UInt32
  children : List UInt32
  deriving DecidableEq

/-- The cells of a tree by their numbers. -/
abbrev Arena := List Cell

namespace Cell

/-- The cell with further children behind those that it has. -/
def addChildren (numbers : List UInt32) (cell : Cell) : Cell :=
  { cell with children := cell.children ++ numbers }

/-- The cell of an entry of an outline. -/
def ofEntry (entry : OutlineEntry) : Cell :=
  ⟨entry.node.data, entry.parent.map UInt32.ofNat, entry.children.map UInt32.ofNat⟩

/-- What a cell is put down with, which adding children does not change. -/
def core (cell : Cell) : NodeData × Option UInt32 :=
  (cell.data, cell.parent)

end Cell

namespace Arena

mutual

/-- Puts down the cells of a node and all its descendants, unless one of them is misplaced: the arena
and the node's number. A node is looked at before its cell is put down. -/
def push (arena : Arena) (parent : Option UInt32) : Node → Except TreeFault (Arena × UInt32)
  | .mk data children =>
    match (Node.mk data children).placementFault? with
    | some fault => .error fault
    | none => do
      let number := UInt32.ofNat arena.length
      let filled ← pushAll (arena ++ [⟨data, parent, []⟩]) number children
      return (filled, number)

/-- Puts down the cells of the children of a node, whose cell gets the number of each. -/
def pushAll (arena : Arena) (number : UInt32) : List Node → Except TreeFault Arena
  | [] => return arena
  | child :: children => do
    let (filled, childNumber) ← push arena (some number) child
    pushAll (filled.modify number.toNat (Cell.addChildren [childNumber])) number children

end

/-- The number of a node's parent. -/
def parent? (arena : Arena) (number : Nat) : Option Nat :=
  arena[number]?.bind fun cell => cell.parent.map UInt32.toNat

/-- What stands in for the cell of a number that no node has. -/
def noCell : Cell :=
  ⟨⟨.root, "", [], 0, [], []⟩, none, []⟩

/-- The tree of an arena, whose nodes are numbers. The root has the first. -/
def view (arena : Arena) : TreeView Nat where
  root := 0
  data number := (arena[number]?.getD noCell).data
  children number := (arena[number]?.getD noCell).children.map UInt32.toNat

/-- What comes of flattening a tree: its root must be a root, then its nodes are put down, and the names of
the arena are checked at the end. -/
inductive Builds (root : Node) : Except TreeFault Arena → Prop
  | rootKind (hkind : root.kind ≠ .root) : Builds root (.error (.rootKind root.kind))
  | misplaced {fault : TreeFault} (hkind : root.kind = .root)
      (hpush : push [] none root = .error fault) : Builds root (.error fault)
  | pushed {arena : Arena} {number : UInt32} {names : Except TreeFault Unit}
      (hkind : root.kind = .root) (hpush : push [] none root = .ok (arena, number))
      (hnames : arena.view.ChecksNames names) : Builds root (names.map fun _ => arena)

/-- Adding children in two steps adds them all. -/
theorem modify_addChildren (arena : Arena) (place : Nat) (first others : List UInt32) :
    (arena.modify place (Cell.addChildren first)).modify place (Cell.addChildren others) =
      arena.modify place (Cell.addChildren (first ++ others)) := by
  rw [List.modify_modify_eq]
  refine congrArg (arena.modify place ·) (funext fun cell => ?_)
  rw [Function.comp_apply, Cell.addChildren, Cell.addChildren, Cell.addChildren, List.append_assoc]

/-- Adding no children changes nothing. -/
theorem modify_addChildren_nil (arena : Arena) (place : Nat) :
    arena.modify place (Cell.addChildren []) = arena := by
  have hsame : Cell.addChildren [] = id := by
    funext cell
    rw [Cell.addChildren, List.append_nil]
    rfl
  rw [hsame, List.modify_id]

/-- Adding children, wherever it is done, changes nothing that the cells were put down with. -/
theorem map_core_modify (arena : Arena) (place : Nat) (numbers : List UInt32) :
    (arena.modify place (Cell.addChildren numbers)).map Cell.core = arena.map Cell.core := by
  induction arena generalizing place with
  | nil => cases place <;> rfl
  | cons cell arena ih =>
      cases place with
      | zero => rfl
      | succ place => rw [List.modify_succ_cons, List.map_cons, List.map_cons, ih]

/-- A cell that is changed is changed where it is, whatever comes behind. -/
theorem modify_append {arena : Arena} {place : Nat} (h : place < arena.length) (behind : Arena)
    (change : Cell → Cell) :
    (arena ++ behind).modify place change = arena.modify place change ++ behind := by
  induction arena generalizing place with
  | nil => cases h
  | cons cell arena ih =>
      cases place with
      | zero => rfl
      | succ place =>
          rw [List.cons_append, List.modify_succ_cons, List.modify_succ_cons,
            ih (Nat.lt_of_succ_lt_succ h), List.cons_append]

/-- What the cells of the entries of an outline are put down with. -/
def cores (entries : List OutlineEntry) : List (NodeData × Option UInt32) :=
  entries.map fun entry => (Cell.ofEntry entry).core

mutual

/-- The first misplaced node of a tree in preorder is refused. A tree without one is put down behind what is
there, a cell for each node, with the node's data and the number of its parent. -/
theorem map_core_push (arena : Arena) (parent : Option Nat) :
    ∀ node : Node,
      (push arena (parent.map UInt32.ofNat) node).map (fun built => (built.1.map Cell.core, built.2)) =
        match node.preorder.findSome? Node.placementFault? with
        | some fault => .error fault
        | none => .ok (arena.map Cell.core ++ cores (Node.outlineFrom arena.length parent node),
            UInt32.ofNat arena.length)
  | .mk data children => by
      rw [push, Node.preorder, List.findSome?_cons]
      cases (Node.mk data children).placementFault? with
      | some fault => rfl
      | none =>
          let placed : Arena := arena ++ [⟨data, parent.map UInt32.ofNat, []⟩]
          have hlength : placed.length = arena.length + 1 := List.length_append
          have hchildren := map_core_pushAll placed arena.length children
          rw [hlength] at hchildren
          show Except.map _ (do
            let filled ← pushAll placed (UInt32.ofNat arena.length) children
            return (filled, UInt32.ofNat arena.length)) = _
          cases hfault : (Node.preorderAll children).findSome? Node.placementFault? with
          | some fault =>
              rw [hfault] at hchildren
              rw [map_eq_error.mp hchildren]
              rfl
          | none =>
              rw [hfault] at hchildren
              obtain ⟨filled, hfilled, hcores⟩ := map_eq_ok.mp hchildren
              rw [hfilled]
              show Except.ok (filled.map Cell.core, _) = Except.ok (_, _)
              rw [hcores, List.map_append, List.append_assoc]
              rfl

/-- The same of several trees, whose nodes are put down one tree after another. -/
theorem map_core_pushAll (arena : Arena) (number : Nat) :
    ∀ nodes : List Node,
      (pushAll arena (UInt32.ofNat number) nodes).map (List.map Cell.core) =
        match (Node.preorderAll nodes).findSome? Node.placementFault? with
        | some fault => .error fault
        | none => .ok (arena.map Cell.core ++ cores (Node.outlineAll arena.length number nodes))
  | [] => by
      show Except.ok _ = Except.ok (arena.map Cell.core ++ [])
      rw [List.append_nil]
  | node :: nodes => by
      have hfirst := map_core_push arena (some number) node
      rw [pushAll, Node.preorderAll, List.findSome?_append]
      cases hfault : node.preorder.findSome? Node.placementFault? with
      | some fault =>
          rw [hfault] at hfirst
          rw [show push arena (some (UInt32.ofNat number)) node = .error fault from
            map_eq_error.mp hfirst]
          rfl
      | none =>
          rw [hfault] at hfirst
          obtain ⟨⟨filled, first⟩, hfilled, hcores⟩ := map_eq_ok.mp hfirst
          obtain ⟨hcores, -⟩ := Prod.mk.inj hcores
          have hlength : filled.length = arena.length + node.size := by
            rw [← List.length_map Cell.core, hcores, List.length_append, List.length_map, cores,
              List.length_map, Node.length_outlineFrom]
          have hothers := map_core_pushAll
            (filled.modify (UInt32.ofNat number).toNat (Cell.addChildren [first])) number nodes
          rw [List.length_modify, hlength, map_core_modify, hcores] at hothers
          rw [show push arena (some (UInt32.ofNat number)) node = .ok (filled, first) from hfilled]
          show (pushAll (filled.modify ..) (UInt32.ofNat number) nodes).map _ = _
          rw [hothers, Node.outlineAll, cores, cores, cores, List.map_append, List.append_assoc]
          rfl

end

mutual

/-- A tree without a misplaced node is put down as its outline behind what is there, and otherwise the first
misplaced node in preorder is refused. The arena must be no longer than a word counts. -/
theorem push_eq (arena : Arena) (parent : Option Nat) :
    ∀ node : Node, arena.length + node.size ≤ 2 ^ 32 →
      push arena (parent.map UInt32.ofNat) node =
        match node.preorder.findSome? Node.placementFault? with
        | some fault => .error fault
        | none => .ok (arena ++ (Node.outlineFrom arena.length parent node).map Cell.ofEntry,
            UInt32.ofNat arena.length)
  | .mk data children, hsize => by
      rw [push, Node.preorder, List.findSome?_cons]
      cases (Node.mk data children).placementFault? with
      | some fault => rfl
      | none =>
          let placed : Arena := arena ++ [⟨data, parent.map UInt32.ofNat, []⟩]
          have hlength : placed.length = arena.length + 1 := List.length_append
          have hlast : arena.length < placed.length := by omega
          rw [Node.size_mk] at hsize
          have hchildren := pushAll_eq placed hlast children (by omega)
          rw [hlength] at hchildren
          show (do
            let filled ← pushAll placed (UInt32.ofNat arena.length) children
            return (filled, UInt32.ofNat arena.length)) = _
          rw [hchildren]
          cases (Node.preorderAll children).findSome? Node.placementFault? with
          | some fault => rfl
          | none =>
              -- The node's own cell is the last one before those of the children.
              have hcell (numbers : List UInt32) :
                  placed.modify arena.length (Cell.addChildren numbers) =
                    arena ++ [⟨data, parent.map UInt32.ofNat, numbers⟩] := by
                rw [List.modify_eq_take_cons_drop (by omega)]
                simp [placed, Cell.addChildren]
              show Except.ok (_ ++ _, _) = Except.ok (_, _)
              rw [hcell, Node.outlineFrom, List.map_cons, List.append_assoc]
              rfl

/-- Several trees are put down one behind another, and their parent's cell has their numbers. -/
theorem pushAll_eq (arena : Arena) {number : Nat} (h : number < arena.length) :
    ∀ nodes : List Node, arena.length + Node.sizeAll nodes ≤ 2 ^ 32 →
      pushAll arena (UInt32.ofNat number) nodes =
        match (Node.preorderAll nodes).findSome? Node.placementFault? with
        | some fault => .error fault
        | none => .ok (arena.modify number
              (Cell.addChildren ((Node.siblingNumbers arena.length nodes).map UInt32.ofNat)) ++
            (Node.outlineAll arena.length number nodes).map Cell.ofEntry)
  | [], _ => by
      rw [pushAll, Node.siblingNumbers, List.map_nil, modify_addChildren_nil]
      show _ = Except.ok (arena ++ [])
      rw [List.append_nil]
      rfl
  | node :: nodes, hsize => by
      rw [Node.sizeAll_cons] at hsize
      have hfirst := push_eq arena (some number) node (by omega)
      rw [Option.map_some] at hfirst
      rw [pushAll, hfirst, Node.preorderAll, List.findSome?_append]
      cases node.preorder.findSome? Node.placementFault? with
      | some fault => rfl
      | none =>
          let first := UInt32.ofNat arena.length
          let filled := arena.modify number (Cell.addChildren [first]) ++
            (Node.outlineFrom arena.length (some number) node).map Cell.ofEntry
          have hlength : filled.length = arena.length + node.size := by
            rw [List.length_append, List.length_modify, List.length_map, Node.length_outlineFrom]
          have hparent : number < filled.length := by omega
          have hothers := pushAll_eq filled hparent nodes (by omega)
          have hword : (UInt32.ofNat number).toNat = number :=
            UInt32.toNat_ofNat_of_lt' (show _ < 2 ^ 32 by omega)
          have hmodify : (arena ++ (Node.outlineFrom arena.length (some number) node).map
              Cell.ofEntry).modify (UInt32.ofNat number).toNat (Cell.addChildren [first]) = filled := by
            rw [hword]
            exact modify_append h ..
          show pushAll ((arena ++ _).modify _ _) (UInt32.ofNat number) nodes = _
          rw [hmodify, hothers, hlength, modify_append (by simpa using h), modify_addChildren]
          rw [Node.outlineAll, List.map_append, List.append_assoc]
          rfl

end

/-- The cells of the entries of an outline are where their numbers say, and words hold the numbers in
them. -/
def Holds (arena : Arena) (entries : List OutlineEntry) : Prop :=
  ∀ entry ∈ entries, arena[entry.number]? = some (Cell.ofEntry entry) ∧
    (∀ number ∈ entry.parent, number < 2 ^ 32) ∧ ∀ number ∈ entry.children, number < 2 ^ 32

/-- Entries are held together when each is. -/
theorem Holds.of_append {arena : Arena} {first others : List OutlineEntry}
    (h : arena.Holds (first ++ others)) : arena.Holds first ∧ arena.Holds others :=
  List.forall_mem_append.mp h

/-- Numbers that words hold can be read back from the words. -/
theorem map_toNat_ofNat {numbers : List Nat} (h : ∀ number ∈ numbers, number < 2 ^ 32) :
    (numbers.map UInt32.ofNat).map UInt32.toNat = numbers := by
  rw [List.map_map]
  exact (List.map_congr_left fun number hnumber => UInt32.toNat_ofNat_of_lt' (h number hnumber)).trans
    (List.map_id numbers)

/-- The view of an entry that is held has the entry's data and children. -/
theorem Holds.view_eq {arena : Arena} {entries : List OutlineEntry} (h : arena.Holds entries)
    {entry : OutlineEntry} (hentry : entry ∈ entries) :
    arena.view.data entry.number = entry.node.data ∧
      arena.view.children entry.number = entry.children ∧
      arena.parent? entry.number = entry.parent := by
  obtain ⟨hcell, hparent, hchildren⟩ := h entry hentry
  refine ⟨congrArg (fun cell => (cell.getD noCell).data) hcell, ?_, ?_⟩
  · show (arena[entry.number]?.getD noCell).children.map UInt32.toNat = entry.children
    rw [hcell]
    exact map_toNat_ofNat hchildren
  · rw [parent?, hcell]
    show (entry.parent.map UInt32.ofNat).map UInt32.toNat = entry.parent
    cases hnumber : entry.parent with
    | none => rfl
    | some number => exact congrArg some (UInt32.toNat_ofNat_of_lt' (hparent number hnumber))

/-- What has no cell has no children. -/
theorem children_of_none {arena : Arena} {number : Nat} (h : arena[number]? = none) :
    arena.view.children number = [] :=
  congrArg (fun cell => (cell.getD noCell).children.map UInt32.toNat) h

mutual

/-- An arena that holds the outline of a tree shows the tree. -/
theorem Holds.shows {arena : Arena} {number : Nat} {parent : Option Nat} :
    ∀ {node : Node}, arena.Holds (Node.outlineFrom number parent node) →
      arena.view.Shows number node (List.range' number node.size)
  | .mk data children, h => by
      obtain ⟨hdata, hchildren, -⟩ := h.view_eq (List.mem_cons_self ..)
      have hothers : arena.Holds (Node.outlineAll (number + 1) number children) :=
        fun entry hentry => h entry (List.mem_cons_of_mem _ hentry)
      have hbelow := hothers.showsAll
      rw [Node.size_mk, List.range'_succ]
      dsimp only at hdata hchildren
      rw [← hchildren] at hbelow
      have hshows := TreeView.Shows.mk hbelow
      rw [hdata] at hshows
      exact hshows

/-- An arena that holds the outlines of several trees shows the trees. -/
theorem Holds.showsAll {arena : Arena} {first number : Nat} :
    ∀ {nodes : List Node}, arena.Holds (Node.outlineAll first number nodes) →
      arena.view.ShowsAll (Node.siblingNumbers first nodes) nodes
        (List.range' first (Node.sizeAll nodes))
  | [], _ => .nil
  | node :: nodes, h => by
      obtain ⟨hfirst, hothers⟩ := Holds.of_append h
      rw [Node.sizeAll_cons, ← List.range'_append_1]
      exact .cons hfirst.shows hothers.showsAll

end

/-- The cells of the outline of a tree. -/
def ofNode (root : Node) : Arena :=
  root.outline.map Cell.ofEntry

section Built

variable {root : Node} {entry : OutlineEntry}

/-- The cells of an outline are where its numbers say, and a word that counts the nodes holds the
numbers. -/
theorem holds_ofNode (hsize : root.size ≤ 2 ^ 32) : (ofNode root).Holds root.outline := by
  intro entry hentry
  have hword {other : OutlineEntry} (hother : other ∈ root.outline) : other.number < 2 ^ 32 :=
    Nat.lt_of_lt_of_le (Node.number_lt_size hother) hsize
  refine ⟨?_, fun number hnumber => ?_, fun number hnumber => ?_⟩
  · rw [ofNode, List.getElem?_map, Node.getElem?_outline_eq_some.mpr ⟨hentry, rfl⟩]
    rfl
  · rcases Node.exists_parent hentry with ⟨-, hnone⟩ | ⟨above, habove, hsame, -⟩
    · cases hnone.symm.trans hnumber
    · cases hsame.symm.trans hnumber
      exact hword habove
  · obtain ⟨other, hother, rfl, -⟩ := Node.exists_of_mem_children hentry hnumber
    exact hword hother

/-- A number that some cell has is that of an entry. -/
theorem exists_entry {number : Nat} {cell : Cell} (h : (ofNode root)[number]? = some cell) :
    ∃ entry ∈ root.outline, entry.number = number ∧ Cell.ofEntry entry = cell := by
  rw [ofNode, List.getElem?_map, Option.map_eq_some_iff] at h
  obtain ⟨entry, hentry, hcell⟩ := h
  obtain ⟨hmem, hnumber⟩ := Node.getElem?_outline_eq_some.mp hentry
  exact ⟨entry, hmem, hnumber, hcell⟩

/-- The children of a number are the numbers that have it as their parent. -/
theorem isChild_iff (hsize : root.size ≤ 2 ^ 32) {above below : Nat} :
    (ofNode root).view.IsChild above below ↔ (ofNode root).parent? below = some above := by
  have hholds := holds_ofNode hsize
  constructor
  · intro hchild
    cases hcell : (ofNode root)[above]? with
    | none =>
        rw [TreeView.IsChild, children_of_none hcell] at hchild
        cases hchild
    | some cell =>
        obtain ⟨entry, hentry, rfl, -⟩ := exists_entry hcell
        rw [TreeView.IsChild, (hholds.view_eq hentry).2.1] at hchild
        obtain ⟨other, hother, rfl, hparent⟩ := Node.exists_of_mem_children hentry hchild
        rw [(hholds.view_eq hother).2.2, hparent]
  · intro hparent
    obtain ⟨cell, hcell, -⟩ := Option.bind_eq_some_iff.mp hparent
    obtain ⟨other, hother, rfl, -⟩ := exists_entry hcell
    rw [(hholds.view_eq hother).2.2] at hparent
    rcases Node.exists_parent hother with ⟨-, hnone⟩ | ⟨entry, hentry, hsame, hchild⟩
    · cases hnone.symm.trans hparent
    · cases hsame.symm.trans hparent
      rw [TreeView.IsChild, (hholds.view_eq hentry).2.1]
      exact hchild

/-- The arena of a tree shows the tree. -/
theorem shows_ofNode (hsize : root.size ≤ 2 ^ 32) :
    (ofNode root).view.Shows 0 root (List.range root.size) := by
  rw [List.range_eq_range']
  exact (holds_ofNode hsize).shows

/-- The arena of a tree shows what is below each of its nodes. -/
theorem showsAll_children (hsize : root.size ≤ 2 ^ 32) (hentry : entry ∈ root.outline) :
    (ofNode root).view.ShowsAll ((ofNode root).view.children entry.number) entry.node.children
      (List.range' (entry.number + 1) (Node.sizeAll entry.node.children)) := by
  obtain ⟨before, after, hblock⟩ := Node.exists_block hentry
  have hholds := holds_ofNode hsize
  rw [(hholds.view_eq hentry).2.1, Node.children_eq hentry]
  have hbelow : (ofNode root).Holds
      (Node.outlineAll (entry.number + 1) entry.number entry.node.children) := by
    intro other hother
    refine hholds other ?_
    obtain ⟨number, ⟨data, children⟩, parent, numbers⟩ := entry
    rw [Node.outline, hblock]
    exact List.mem_append_left _ (List.mem_append_right _ (List.mem_cons_of_mem _ hother))
  exact hbelow.showsAll

/-- The numbers of the nodes of a kind are the numbers whose data is of the kind. -/
theorem filter_zipIdx {nodes : List Node} {first : Nat} {data : Nat → NodeData} (kind : NodeKind)
    (h : (List.range' first nodes.length).map data = nodes.map Node.data) :
    ((nodes.zipIdx first).filter (·.1.kind = kind)).map (·.2) =
      (List.range' first nodes.length).filter fun number => (data number).kind = kind := by
  induction nodes generalizing first with
  | nil => rfl
  | cons node nodes ih =>
      rw [List.length_cons, List.range'_succ, List.map_cons, List.map_cons] at h
      obtain ⟨hnode, hnodes⟩ := List.cons.inj h
      have hkind : (data first).kind = node.kind := congrArg NodeData.kind hnode
      rw [List.length_cons, List.range'_succ, List.zipIdx_cons]
      by_cases hsame : node.kind = kind
      · rw [List.filter_cons_of_pos (by simpa using hsame), List.map_cons, ih hnodes,
          List.filter_cons_of_pos (by simpa [hkind] using hsame)]
      · rw [List.filter_cons_of_neg (by simpa using hsame), ih hnodes,
          List.filter_cons_of_neg (by simpa [hkind] using hsame)]

/-- The numbers of the descendants of a kind are those of the cells of that kind behind the node's. -/
theorem descendantsOfKind_eq (hsize : root.size ≤ 2 ^ 32) (hentry : entry ∈ root.outline)
    (kind : NodeKind) :
    entry.descendantsOfKind kind =
      (List.range' (entry.number + 1) (Node.sizeAll entry.node.children)).filter
        fun number => ((ofNode root).view.data number).kind = kind :=
  filter_zipIdx kind (showsAll_children hsize hentry).map_data

/-- Walking from the children of a node finds its descendants of a kind. -/
theorem findsKind_iff (hsize : root.size ≤ 2 ^ 32) (hentry : entry ∈ root.outline)
    {kind : NodeKind} {found : List Nat} :
    (ofNode root).view.FindsKind entry.number kind found ↔ found = entry.descendantsOfKind kind := by
  rw [TreeView.findsKind_iff (showsAll_children hsize hentry), descendantsOfKind_eq hsize hentry]

/-- The descendants of a kind are what one comes to from parents to children and is of the kind. -/
theorem mem_descendantsOfKind (hsize : root.size ≤ 2 ^ 32) (hentry : entry ∈ root.outline)
    {kind : NodeKind} {number : Nat} :
    number ∈ entry.descendantsOfKind kind ↔
      Relation.TransGen (fun above below => (ofNode root).parent? below = some above)
        entry.number number ∧
      ((ofNode root).view.data number).kind = kind := by
  have hlinks : (ofNode root).view.IsChild =
      fun above below => (ofNode root).parent? below = some above :=
    funext fun above => funext fun below => propext (isChild_iff hsize)
  rw [descendantsOfKind_eq hsize hentry, List.mem_filter, (showsAll_children hsize hentry).mem_iff, hlinks,
    decide_eq_true_iff]

/-- The descendants of a kind are in the order of their numbers. -/
theorem pairwise_descendantsOfKind (hsize : root.size ≤ 2 ^ 32) (hentry : entry ∈ root.outline)
    (kind : NodeKind) :
    (entry.descendantsOfKind kind).Pairwise (· < ·) := by
  rw [descendantsOfKind_eq hsize hentry]
  exact (List.pairwise_lt_range' ..).filter _

/-- The children of a node have their numbers in authoring order. -/
theorem map_children (hsize : root.size ≤ 2 ^ 32) (hentry : entry ∈ root.outline) :
    ((ofNode root).view.children entry.number).map (root.preorder[·]?) =
      entry.node.children.map some := by
  obtain ⟨before, after, hpreorder, hlength⟩ := Node.exists_around hentry
  rw [((holds_ofNode hsize).view_eq hentry).2.1, Node.children_eq hentry, hpreorder]
  obtain ⟨number, ⟨data, children⟩, parent, numbers⟩ := entry
  have hchildren := @Node.map_siblingNumbers children (before ++ [.mk data children]) after
  rw [List.length_append, hlength, List.append_assoc before] at hchildren
  exact hchildren

end Built

/-- A node is where it may be when it has a name and its kind allows those of its children. -/
theorem placementFault?_eq_none {node : Node} :
    node.placementFault? = none ↔
      node.name ≠ "" ∧ ∀ child ∈ node.children, child.kind ∈ node.kind.allowedChildren := by
  unfold Node.placementFault?
  split
  · rename_i hempty
    simp_all
  · rename_i hempty
    simp_all

/-- A tree has no misplaced node when all its nodes are where they may be. -/
theorem findSome?_placementFault?_eq_none {root : Node} :
    root.preorder.findSome? Node.placementFault? = none ↔
      ∀ node ∈ root.preorder, node.name ≠ "" ∧
        ∀ child ∈ node.children, child.kind ∈ node.kind.allowedChildren := by
  simp only [List.findSome?_eq_none_iff, placementFault?_eq_none]

/-- Checking a tree whose root is no root refuses it for that. -/
theorem check_of_kind_ne {root : Node} (h : root.kind ≠ .root) :
    root.check = .error (.rootKind root.kind) := by
  rw [Node.check, if_pos h]
  rfl

/-- A tree whose root is one is refused for its first misplaced node, or checked for its names. -/
theorem check_of_kind_eq {root : Node} (h : root.kind = .root) :
    root.check = match root.preorder.findSome? Node.placementFault? with
      | some fault => .error fault
      | none => root.checkNames := by
  rw [Node.check, if_neg (not_not_intro h)]
  cases root.preorder.findSome? Node.placementFault? <;> rfl

/-- A tree passes when its root is a root, its nodes are where they may be and its names pass. -/
theorem check_eq_ok_iff {root : Node} :
    root.check = .ok () ↔ root.kind = .root ∧
      (∀ node ∈ root.preorder, node.name ≠ "" ∧
        ∀ child ∈ node.children, child.kind ∈ node.kind.allowedChildren) ∧
      root.checkNames = .ok () := by
  by_cases hkind : root.kind = .root
  · rw [check_of_kind_eq hkind, ← findSome?_placementFault?_eq_none]
    cases root.preorder.findSome? Node.placementFault? with
    | some fault => exact ⟨nofun, fun h => nomatch h.2.1⟩
    | none => exact ⟨fun hnames => ⟨hkind, rfl, hnames⟩, fun h => h.2.2⟩
  · rw [check_of_kind_ne hkind]
    exact ⟨nofun, fun h => absurd h.1 hkind⟩

section Refused

variable {root : Node} {result : Except TreeFault Arena}

/-- A tree whose root is no root is refused for it. -/
theorem builds_iff_of_kind_ne (h : root.kind ≠ .root) :
    Builds root result ↔ result = .error (.rootKind root.kind) := by
  constructor
  · intro hbuilds
    cases hbuilds with
    | rootKind => rfl
    | misplaced hkind | pushed hkind => exact absurd hkind h
  · rintro rfl
    exact .rootKind h

/-- A tree with misplaced nodes is refused for the first in preorder, whatever its size. -/
theorem builds_iff_of_fault {fault : TreeFault} (hkind : root.kind = .root)
    (hfault : root.preorder.findSome? Node.placementFault? = some fault) :
    Builds root result ↔ result = .error fault := by
  have hcores := map_core_push [] none root
  rw [hfault] at hcores
  have hpush : push [] none root = .error fault := map_eq_error.mp hcores
  constructor
  · intro hbuilds
    cases hbuilds with
    | rootKind hother => exact absurd hkind hother
    | misplaced _ hrefused =>
        cases hpush.symm.trans hrefused
        rfl
    | pushed _ hplaced => cases hpush.symm.trans hplaced
  · rintro rfl
    exact .misplaced hkind hpush

/-- What is built of a tree, whatever its size, has a cell for each node, with its data and the number
of its parent. The tree has no misplaced node. -/
theorem of_builds_ok {arena : Arena} (h : Builds root (.ok arena)) :
    root.kind = .root ∧ root.preorder.findSome? Node.placementFault? = none ∧
      arena.map Cell.core = cores root.outline := by
  by_cases hkind : root.kind = .root
  · cases hfault : root.preorder.findSome? Node.placementFault? with
    | some fault => cases (builds_iff_of_fault hkind hfault).mp h
    | none =>
        have hcores := map_core_push [] none root
        rw [hfault] at hcores
        obtain ⟨⟨built, number⟩, hpush, hbuilt⟩ := map_eq_ok.mp hcores
        generalize hresult : Except.ok arena = result at h
        cases h with
        | rootKind | misplaced => cases hresult
        | pushed _ hplaced =>
            cases hplaced.symm.trans hpush
            obtain ⟨_, -, rfl⟩ := map_eq_ok.mp hresult.symm
            exact ⟨hkind, rfl, (Prod.mk.inj hbuilt).1⟩
  · cases (builds_iff_of_kind_ne hkind).mp h

end Refused

/-- When a word counts the nodes of a tree, flattening comes to the cells of its outline, unless the
tree does not pass. -/
theorem builds_iff {root : Node} (hsize : root.size ≤ 2 ^ 32) {result : Except TreeFault Arena} :
    Builds root result ↔ result = root.check.map fun _ => ofNode root := by
  -- The cases are those of `check`: the root's kind, then the placements, then the names.
  by_cases hkind : root.kind = .root
  · rw [check_of_kind_eq hkind]
    cases hfault : root.preorder.findSome? Node.placementFault? with
    | some fault => exact builds_iff_of_fault hkind hfault
    | none =>
        have hpush : push [] none root = .ok (ofNode root, 0) := by
          have hplaced := push_eq [] none root (by rwa [List.length_nil, Nat.zero_add])
          rw [hfault] at hplaced
          exact hplaced
        have hnames (names : Except TreeFault Unit) :
            (ofNode root).view.ChecksNames names ↔ names = root.checkNames :=
          TreeView.checksNames_iff (shows_ofNode hsize)
        constructor
        · intro h
          cases h with
          | rootKind hother => exact absurd hkind hother
          | misplaced _ hrefused => cases hpush.symm.trans hrefused
          | pushed _ hplaced hchecked =>
              cases hpush.symm.trans hplaced
              rw [(hnames _).mp hchecked]
        · rintro rfl
          exact .pushed hkind hpush ((hnames _).mpr rfl)
  · rw [check_of_kind_ne hkind]
    exact builds_iff_of_kind_ne hkind

/-- A tree is flattened faithfully. One whose root is no root is refused for it, and one with misplaced
nodes for the first of them in preorder. What is built has a cell for each node in preorder, with its
data and the number of its parent.

When a word counts the nodes, whether a tree is built, and the fault that it is refused for, are what
checking it says: its root must be a root, every node must have a name and children of kinds that it may
have, and the names must pass. The children of a node are, in authoring order, exactly the numbers that
have it as their parent. A walk with a stack from its children finds exactly its descendants of a kind,
by increasing numbers. -/
theorem build_faithful (root : Node) :
    (root.kind ≠ .root →
      ∀ result, Builds root result ↔ result = .error (.rootKind root.kind)) ∧
    (∀ fault, root.kind = .root →
      root.preorder.findSome? Node.placementFault? = some fault →
      ∀ result, Builds root result ↔ result = .error fault) ∧
    (∀ arena, Builds root (.ok arena) → root.kind = .root ∧
      (∀ node ∈ root.preorder, node.name ≠ "" ∧
        ∀ child ∈ node.children, child.kind ∈ node.kind.allowedChildren) ∧
      arena.map (·.data) = root.preorder.map Node.data ∧
      arena.map (·.parent) = root.outline.map (·.parent.map UInt32.ofNat)) ∧
    (root.size ≤ 2 ^ 32 →
      (∀ result, Builds root result ↔ result = root.check.map fun _ => ofNode root) ∧
      ((∃ arena, Builds root (.ok arena)) ↔ root.kind = .root ∧
        (∀ node ∈ root.preorder, node.name ≠ "" ∧
          ∀ child ∈ node.children, child.kind ∈ node.kind.allowedChildren) ∧
        root.checkNames = .ok ()) ∧
      ∀ arena, Builds root (.ok arena) →
        arena.map (·.data) = root.preorder.map Node.data ∧
        root.outline.map (·.number) = List.range arena.length ∧
        ∀ entry ∈ root.outline,
          root.preorder[entry.number]? = some entry.node ∧
          (arena.view.children entry.number).map (root.preorder[·]?) =
            entry.node.children.map some ∧
          (∀ child, child ∈ arena.view.children entry.number ↔
            arena.parent? child = some entry.number) ∧
          ∀ kind, (∀ found, arena.view.FindsKind entry.number kind found ↔
              found = entry.descendantsOfKind kind) ∧
            (entry.descendantsOfKind kind).Pairwise (· < ·) ∧
            ∀ number, number ∈ entry.descendantsOfKind kind ↔
              Relation.TransGen (fun above below => arena.parent? below = some above)
                entry.number number ∧
              (arena.view.data number).kind = kind) := by
  refine ⟨fun hkind result => builds_iff_of_kind_ne hkind,
    fun fault hkind hfault result => builds_iff_of_fault hkind hfault, fun arena h => ?_,
    fun hsize => ⟨fun result => builds_iff hsize, ?_, fun arena h => ?_⟩⟩
  · obtain ⟨hkind, hplaced, hcores⟩ := of_builds_ok h
    refine ⟨hkind, findSome?_placementFault?_eq_none.mp hplaced, ?_, ?_⟩
    · have hdata := congrArg (List.map Prod.fst) hcores
      rw [List.map_map, cores, List.map_map] at hdata
      refine hdata.trans ?_
      rw [← Node.map_node_outlineFrom 0 none root, List.map_map]
      rfl
    · have hparents := congrArg (List.map Prod.snd) hcores
      rw [List.map_map, cores, List.map_map] at hparents
      exact hparents
  · rw [← check_eq_ok_iff]
    simp only [builds_iff hsize]
    cases root.check with
    | error fault => exact ⟨fun ⟨_, h⟩ => (nomatch h), nofun⟩
    | ok _ => exact ⟨fun _ => rfl, fun _ => ⟨_, rfl⟩⟩
  · obtain ⟨_, -, hsame⟩ := map_eq_ok.mp ((builds_iff hsize).mp h).symm
    subst hsame
    refine ⟨?_, ?_, fun entry hentry => ⟨?_, map_children hsize hentry,
      fun child => isChild_iff hsize, fun kind => ⟨fun found => findsKind_iff hsize hentry,
        pairwise_descendantsOfKind hsize hentry kind,
        fun number => mem_descendantsOfKind hsize hentry⟩⟩⟩
    · rw [← Node.map_node_outlineFrom 0 none root, List.map_map, ofNode, List.map_map]
      rfl
    · rw [ofNode, List.length_map, Node.outline, Node.map_number_outlineFrom,
        Node.length_outlineFrom, List.range_eq_range']
    · rw [← Node.map_node_outlineFrom 0 none root, List.getElem?_map, ← Node.outline,
        Node.getElem?_outline_eq_some.mpr ⟨hentry, rfl⟩]
      rfl

/-- A scene with a group of two actors, and a group beside it. -/
def twoGroups : Node :=
  let node (kind : NodeKind) (name : String) : List Node → Node := .mk ⟨kind, name, [], 0, [], []⟩
  node .root "play"
    [node .scene "first" [node .group "crowd" [node .actor "one" [], node .actor "two" []]],
      node .group "choir" [node .actor "three" []]]

/-- The actors below the root of the arena are those of the scene's group and then that of the other. -/
theorem build_faithful_twoGroups :
    Builds twoGroups (.ok (ofNode twoGroups)) ∧
      (ofNode twoGroups).view.children 0 = [1, 5] ∧
      ((ofNode twoGroups).parent? 5 = some 0) ∧
      (ofNode twoGroups).view.FindsKind 0 .actor [3, 4, 6] := by
  obtain ⟨-, -, -, hfaithful⟩ := build_faithful twoGroups
  obtain ⟨hresult, -, hbuilt⟩ := hfaithful (by decide)
  have hpasses := (hresult (.ok (ofNode twoGroups))).mpr rfl
  obtain ⟨-, -, hentries⟩ := hbuilt _ hpasses
  obtain ⟨-, -, hchildren, hkinds⟩ := hentries ⟨0, twoGroups, none, [1, 5]⟩ (.head _)
  exact ⟨hpasses, rfl, (hchildren 5).mp (.tail _ (.head _)), ((hkinds .actor).1 _).mpr rfl⟩

end Arena

end StageArchive
