import StageArchive.Chunk.Walk
import StageArchive.Proofs.Chunk.Tree
/-!
# A walk visits what is read as trees

A walk and the reading of trees enter the same chunks in the same order; the walk passes over the
contents, and keeps the depth instead. So where trees are read to their end, `walkFrom_of_treesFrom`
gives the visits of the walk, and `leaf_of_visit` the content of each chunk among them that is no form.
-/

namespace StageArchive

namespace FoundTree

mutual

/-- The visits of a walk that meets a chunk at a depth: the chunk and all chunks inside it. -/
def visits (depth : Nat) : FoundTree → List Visit
  | .leaf chunk _ => [⟨depth, chunk⟩]
  | .form chunk children => ⟨depth, chunk⟩ :: visitsAll (depth + 1) children

/-- The visits of a walk that meets some chunks at a depth, one after another. -/
def visitsAll (depth : Nat) : List FoundTree → List Visit
  | [] => []
  | tree :: others => tree.visits depth ++ visitsAll depth others

end

mutual

/-- The chunks of a tree that hold no further chunks, with their contents. -/
def leaves : FoundTree → List (Chunk × Bytes)
  | .leaf chunk content => [(chunk, content)]
  | .form _ children => leavesAll children

/-- The chunks of some trees that hold no further chunks, with their contents. -/
def leavesAll : List FoundTree → List (Chunk × Bytes)
  | [] => []
  | tree :: others => tree.leaves ++ leavesAll others

end

end FoundTree

namespace ChunkTree

mutual

/-- The tags of the chunks to be written that hold no further chunks, with the contents that they are
read with. -/
def leaves : ChunkTree → List (Tag × Bytes)
  | .leaf tag body => [(tag, padded body)]
  | .form _ _ children => leavesAll children

/-- The same for chunks to be written one after another. -/
def leavesAll : List ChunkTree → List (Tag × Bytes)
  | [] => []
  | tree :: others => tree.leaves ++ leavesAll others

end

mutual

/-- The leaves that are met of a tree are those of the tree. -/
theorem leaves_place (offset : Nat) (tree : ChunkTree) :
    (tree.place offset).leaves.map (Prod.map Chunk.tag id) = tree.leaves := by
  cases tree with
  | leaf tag body => rfl
  | form tag subtype children => exact leavesAll_placeAll (offset + 12) children

/-- The leaves that are met of some trees are those of the trees. -/
theorem leavesAll_placeAll (offset : Nat) (trees : List ChunkTree) :
    (FoundTree.leavesAll (placeAll offset trees)).map (Prod.map Chunk.tag id) = leavesAll trees := by
  cases trees with
  | nil => rfl
  | cons tree others =>
      rw [placeAll, FoundTree.leavesAll, List.map_append, leaves_place offset tree,
        leavesAll_placeAll (offset + tree.length) others]
      rfl

end

end ChunkTree

namespace Chunk

variable {parent chunk : Chunk} {source after : Source} {depth : Nat}

/-- A walk ends where there is no next chunk. -/
theorem walkFrom_of_none (h : Reading.next? parent source = (.ok none, after)) :
    parent.walkFrom depth source = ([], none) := by
  rw [walkFrom]
  split
  · rename_i hnext
    cases h.symm.trans hnext
  · rfl
  · rename_i hnext
    cases h.symm.trans hnext

/-- A walk ends at a chunk that cannot be entered. -/
theorem walkFrom_of_error {fault : ChunkFault}
    (h : Reading.next? parent source = (.error fault, after)) :
    parent.walkFrom depth source = ([], some fault) := by
  rw [walkFrom]
  split
  · rename_i hnext
    cases h.symm.trans hnext
    rfl
  · rename_i hnext
    cases h.symm.trans hnext
  · rename_i hnext
    cases h.symm.trans hnext

/-- A walk through a chunk that was entered: the chunk, and what is inside it when it is a form. -/
def walkWhole (chunk : Chunk) (depth : Nat) (source : Source) : List Visit × Option ChunkFault :=
  let inside := if chunk.tag.isForm then chunk.walk (depth + 1) source else ([], none)
  (⟨depth, chunk⟩ :: inside.1, inside.2)

/-- A walk and, unless a fault ended it, another one behind it. -/
def followedBy (first second : List Visit × Option ChunkFault) : List Visit × Option ChunkFault :=
  match first.2 with
  | some fault => (first.1, some fault)
  | none => (first.1 ++ second.1, second.2)

/-- A walk goes through the next chunk and then through what is behind it. -/
theorem walkFrom_of_next? (h : Reading.next? parent source = (.ok (some chunk), after)) :
    parent.walkFrom depth source = followedBy (chunk.walkWhole depth after)
      (parent.walkFrom depth { after with position := chunk.finish }) := by
  rw [walkFrom]
  split
  · rename_i hnext
    cases h.symm.trans hnext
  · rename_i hnext
    cases h.symm.trans hnext
  · rename_i hnext
    cases h.symm.trans hnext
    unfold walkWhole walk followedBy
    dsimp only
    generalize (if chunk.tag.isForm = true then _ else _ : List Visit × Option ChunkFault) = inside
    obtain ⟨visits, fault⟩ := inside
    split
    cases fault <;> rfl

end Chunk

namespace Reading

variable {parent chunk : Chunk} {source after last : Source}

/-- What is read as the content of a chunk lies there, as long as the chunk says, and reading it moves
the position only. -/
theorem rest_of_content {found : Bytes} (h : content chunk source = (.ok found, after)) :
    source.data.drop chunk.content = found ++ after.rest ∧ found.length = chunk.contentLength ∧
      after = { source with position := chunk.content + chunk.contentLength } := by
  obtain ⟨_, start, hseek, h⟩ := run_bind_eq_ok.mp h
  cases hseek
  exact rest_of_bytes h

/-- Trees that are read begin with the next chunk, or there is none. -/
theorem treesFrom_eq_ok {found : List FoundTree}
    (h : treesFrom parent source = (.ok found, last)) :
    (next? parent source = (.ok none, last) ∧ found = []) ∨
      ∃ chunk entered middle tree others,
        next? parent source = (.ok (some chunk), entered) ∧ found = tree :: others ∧
        ((chunk.tag.isForm = true ∧ ∃ children,
            treesFrom chunk entered = (.ok children, middle) ∧ tree = .form chunk children) ∨
          (chunk.tag.isForm = false ∧ ∃ bytes,
            content chunk entered = (.ok bytes, middle) ∧ tree = .leaf chunk bytes)) ∧
        treesFrom parent { middle with position := chunk.finish } = (.ok others, last) := by
  rw [treesFrom] at h
  split at h
  · cases h
  · rename_i hnext
    cases h
    exact .inl ⟨hnext, rfl⟩
  · rename_i chunk entered hnext
    refine .inr ⟨chunk, entered, ?_⟩
    -- What is inside is read first, and then the others from the end of the chunk.
    have hbehind {tree : FoundTree} {behind : Source}
        (h : ((treesFrom parent behind).1.map (tree :: ·), (treesFrom parent behind).2) =
          (.ok found, last)) :
        ∃ others, found = tree :: others ∧ treesFrom parent behind = (.ok others, last) := by
      obtain ⟨hothers, hlast⟩ := Prod.mk.inj h
      obtain ⟨others, hread, rfl⟩ := map_eq_ok.mp hothers
      exact ⟨others, rfl, Prod.ext hread hlast⟩
    by_cases hform : chunk.tag.isForm = true
    · simp only [hform, if_true] at h
      rcases hchildren : treesFrom chunk entered with ⟨_ | children, middle⟩
      · rw [hchildren] at h
        cases h
      · rw [hchildren] at h
        obtain ⟨others, rfl, hothers⟩ := hbehind h
        exact ⟨middle, _, others, hnext, rfl, .inl ⟨hform, children, rfl, rfl⟩, hothers⟩
    · simp only [hform, Bool.false_eq_true, if_false] at h
      rcases hcontent : content chunk entered with ⟨_ | bytes, middle⟩
      · rw [hcontent] at h
        cases h
      · rw [hcontent] at h
        obtain ⟨others, rfl, hothers⟩ := hbehind h
        exact ⟨middle, _, others, hnext, rfl,
          .inr ⟨Bool.eq_false_iff.mpr hform, bytes, rfl, rfl⟩, hothers⟩

/-- Reading trees moves the position only. -/
theorem after_of_treesFrom (found : List FoundTree) {parent : Chunk} {source last : Source}
    (h : treesFrom parent source = (.ok found, last)) :
    ∃ position, last = { source with position := position } := by
  rcases treesFrom_eq_ok h with ⟨hnext, rfl⟩ |
    ⟨chunk, entered, middle, tree, others, hnext, rfl, hinside, hothers⟩
  · exact ⟨_, (next?_eq_none.mp hnext).2⟩
  · obtain rfl := after_of_next? hnext
    obtain ⟨_, rfl⟩ := after_of_treesFrom others hothers
    rcases hinside with ⟨-, children, hchildren, rfl⟩ | ⟨-, bytes, hcontent, rfl⟩
    · obtain ⟨_, rfl⟩ := after_of_treesFrom children hchildren
      exact ⟨_, rfl⟩
    · obtain ⟨-, -, rfl⟩ := rest_of_content hcontent
      exact ⟨_, rfl⟩

/-- The first of some trees that are read is what is inside the next chunk; the others are read from the
end of that chunk on. -/
theorem treesFrom_cons {tree : FoundTree} {others : List FoundTree}
    (h : treesFrom parent source = (.ok (tree :: others), last)) :
    ∃ chunk middle,
      next? parent source = (.ok (some chunk), { source with position := chunk.content }) ∧
      ((chunk.tag.isForm = true ∧ ∃ children,
          treesFrom chunk { source with position := chunk.content } = (.ok children, middle) ∧
          tree = .form chunk children) ∨
        (chunk.tag.isForm = false ∧ ∃ bytes,
          content chunk source = (.ok bytes, middle) ∧ tree = .leaf chunk bytes)) ∧
      treesFrom parent { source with position := chunk.finish } = (.ok others, last) := by
  rcases treesFrom_eq_ok h with ⟨-, hfound⟩ |
    ⟨chunk, entered, middle, _, _, hnext, hfound, hinside, hothers⟩
  · cases hfound
  · cases hfound
    obtain rfl := after_of_next? hnext
    rcases hinside with ⟨hform, children, hchildren, rfl⟩ | ⟨hform, bytes, hcontent, rfl⟩
    · obtain ⟨_, rfl⟩ := after_of_treesFrom children hchildren
      exact ⟨chunk, _, hnext, .inl ⟨hform, children, hchildren, rfl⟩, hothers⟩
    · obtain ⟨-, -, rfl⟩ := rest_of_content hcontent
      exact ⟨chunk, _, hnext, .inr ⟨hform, bytes, hcontent, rfl⟩, hothers⟩

/-- Where trees are read, a walk visits their chunks. -/
theorem walkFrom_of_treesFrom (found : List FoundTree) {parent : Chunk} {source last : Source}
    (depth : Nat) (h : treesFrom parent source = (.ok found, last)) :
    parent.walkFrom depth source = (FoundTree.visitsAll depth found, none) := by
  cases found with
  | nil =>
      rcases treesFrom_eq_ok h with ⟨hnext, -⟩ | ⟨_, _, _, _, _, -, hfound, -⟩
      · exact Chunk.walkFrom_of_none hnext
      · cases hfound
  | cons tree others =>
      obtain ⟨chunk, middle, hnext, hinside, hothers⟩ := treesFrom_cons h
      have hbehind := walkFrom_of_treesFrom others depth hothers
      rw [Chunk.walkFrom_of_next? hnext, hbehind, Chunk.walkWhole]
      rcases hinside with ⟨hform, children, hchildren, rfl⟩ | ⟨hform, bytes, -, rfl⟩
      · have hvisits : chunk.walk (depth + 1) { source with position := chunk.content } = _ :=
          walkFrom_of_treesFrom children (depth + 1) hchildren
        rw [if_pos hform, hvisits]
        rfl
      · rw [hform]
        rfl

/-- A chunk that a walk visits and that is no form is among the leaves of the trees that are read, with
the content that it has. -/
theorem leaf_of_visit (found : List FoundTree) {parent : Chunk} {source last : Source} {depth : Nat}
    {visit : Visit} (h : treesFrom parent source = (.ok found, last))
    (hvisit : visit ∈ FoundTree.visitsAll depth found) (hform : visit.chunk.tag.isForm = false) :
    ∃ bytes after, (visit.chunk, bytes) ∈ FoundTree.leavesAll found ∧
      content visit.chunk source = (.ok bytes, after) := by
  cases found with
  | nil => cases hvisit
  | cons tree others =>
      obtain ⟨chunk, middle, -, hinside, hothers⟩ := treesFrom_cons h
      rw [FoundTree.visitsAll] at hvisit
      rw [FoundTree.leavesAll]
      rcases List.mem_append.mp hvisit with hvisit | hvisit
      · rcases hinside with ⟨hparent, children, hchildren, rfl⟩ | ⟨-, bytes, hcontent, rfl⟩
        · rcases List.mem_cons.mp hvisit with rfl | hvisit
          · exact absurd (hparent.symm.trans hform) (by decide)
          · obtain ⟨bytes, after, hleaf, hcontent⟩ := leaf_of_visit children hchildren hvisit hform
            exact ⟨bytes, after, List.mem_append_left _ hleaf, hcontent⟩
        · obtain rfl := List.mem_singleton.mp hvisit
          exact ⟨bytes, middle, List.mem_append_left _ (List.mem_singleton_self _), hcontent⟩
      · obtain ⟨bytes, after, hleaf, hcontent⟩ := leaf_of_visit others hothers hvisit hform
        exact ⟨bytes, after, List.mem_append_right _ hleaf, hcontent⟩

end Reading

end StageArchive
