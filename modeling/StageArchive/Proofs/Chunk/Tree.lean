import StageArchive.Proofs.Chunk.Source
/-!
# Trees of chunks are read back

A tree of chunks is written by opening and closing its chunks in nested order, and read by entering
and leaving each chunk that is met. `place` says where each chunk of a tree lies and what its content
is: `write_eq` finds the tree there when it is written, and `readFrom_of_rest` when it is read. Both
rest on one fact: a chunk has an even length, so it is not padded inside a form, and the size of a form
is that of what was written inside it.
-/

namespace StageArchive

/-- A tag of chunks that hold no further chunks. -/
abbrev LeafTag := { tag : Tag // tag.isForm = false }

/-- A tag of chunks that hold further chunks. -/
abbrev FormTag := { tag : Tag // tag.isForm = true }

/-- A second tag that declares no byte order. -/
abbrev InnerTag := { tag : Tag // tag.order? = none }

/-- A chunk to be written, with everything inside it. -/
inductive ChunkTree where
  | leaf (tag : LeafTag) (body : Bytes)
  | form (tag : FormTag) (subtype : InnerTag) (children : List ChunkTree)

/-- A root form to be written, with the byte order that it declares and everything inside it. -/
structure RootTree where
  order : ByteOrder
  children : List ChunkTree

/-- A chunk that was met, with everything that was met inside it. -/
inductive FoundTree where
  | leaf (chunk : Chunk) (content : Bytes)
  | form (chunk : Chunk) (children : List FoundTree)

/-- What a writer knows of a chunk: its mark, and the size that closing it gave. -/
abbrev Placement := ChunkMark × UInt32

/-- What the writer of a chunk knows of it. -/
def Chunk.placement (chunk : Chunk) : Placement :=
  (⟨chunk.tag, chunk.offset⟩, chunk.size)

namespace FoundTree

/-- The chunk that was met. -/
def chunk : FoundTree → Chunk
  | .leaf chunk _ | .form chunk _ => chunk

mutual

/-- A chunk and all chunks inside it, in the order in which they begin. -/
def chunks : FoundTree → List Chunk
  | .leaf chunk _ => [chunk]
  | .form chunk children => chunk :: chunksAll children

/-- All chunks in some trees. -/
def chunksAll : List FoundTree → List Chunk
  | [] => []
  | tree :: others => tree.chunks ++ chunksAll others

end

mutual

/-- The size of a chunk is even and its content ends where the size says; so does that of every chunk
inside it. -/
def IsTiled : FoundTree → Prop
  | .leaf chunk content => chunk.size.toNat % 2 = 0 ∧ chunk.content + content.length = chunk.finish
  | .form chunk children =>
    chunk.size.toNat % 2 = 0 ∧ AreTiled chunk.content chunk.finish children

/-- Chunks lie one after another without a gap: the first begins at an offset, each ends where the
next one begins, and the last at another offset. -/
def AreTiled (start finish : Nat) : List FoundTree → Prop
  | [] => start = finish
  | tree :: others =>
    tree.chunk.offset = start ∧ tree.IsTiled ∧ AreTiled tree.chunk.finish finish others

end

end FoundTree

namespace ChunkTree

mutual

/-- The number of bytes of a chunk, with its tag and size. -/
def length : ChunkTree → Nat
  | .leaf _ body => 8 + (padded body).length
  | .form _ _ children => 12 + lengthAll children

/-- The number of bytes of some chunks. -/
def lengthAll : List ChunkTree → Nat
  | [] => 0
  | tree :: others => tree.length + lengthAll others

end

mutual

/-- The bytes of a chunk. -/
def bytes (order : ByteOrder) : ChunkTree → Bytes
  | .leaf tag body => chunkBytes order tag body
  | .form tag subtype children =>
    chunkBytes order tag (subtype.val.bytes ++ bytesAll order children)

/-- The bytes of some chunks. -/
def bytesAll (order : ByteOrder) : List ChunkTree → Bytes
  | [] => []
  | tree :: others => tree.bytes order ++ bytesAll order others

end

mutual

/-- Writes a chunk and everything inside it. -/
def write : ChunkTree → Writing (List Placement)
  | .leaf tag body => do
    let mark ← Writing.openChunk tag
    Writing.bytes body
    let size ← Writing.close mark
    return [(mark, size)]
  | .form tag subtype children => do
    let mark ← Writing.openForm tag subtype
    let placements ← writeAll children
    let size ← Writing.close mark
    return (mark, size) :: placements

/-- Writes some chunks one after another. -/
def writeAll : List ChunkTree → Writing (List Placement)
  | [] => return []
  | tree :: others => do
    let first ← tree.write
    let rest ← writeAll others
    return first ++ rest

end

mutual

/-- What was met is what was to be written: it has the same tags and the same shape, and contents of
odd length are followed by a zero. -/
def Matches : ChunkTree → FoundTree → Prop
  | .leaf tag body, .leaf chunk content =>
    chunk.tag = tag ∧ chunk.subtype = none ∧ content = padded body
  | .form tag subtype children, .form chunk found =>
    chunk.tag = tag ∧ chunk.subtype = some subtype.val ∧ MatchAll children found
  | _, _ => False

/-- What was met are the chunks that were to be written, in order. -/
def MatchAll : List ChunkTree → List FoundTree → Prop
  | [], [] => True
  | tree :: trees, found :: others => tree.Matches found ∧ MatchAll trees others
  | _, _ => False

end

/-- The chunk of a tree at an offset. -/
def chunkAt (offset : Nat) : ChunkTree → Chunk
  | .leaf tag body => .ofBody tag body offset
  | .form tag subtype children =>
    ⟨tag, some subtype, offset, UInt32.ofNat (4 + lengthAll children)⟩

mutual

/-- What is met of a tree that lies at an offset. -/
def place (offset : Nat) : ChunkTree → FoundTree
  | .leaf tag body => .leaf (chunkAt offset (.leaf tag body)) (padded body)
  | .form tag subtype children =>
    .form (chunkAt offset (.form tag subtype children)) (placeAll (offset + 12) children)

/-- What is met of trees that lie one after another from an offset on. -/
def placeAll (offset : Nat) : List ChunkTree → List FoundTree
  | [] => []
  | tree :: others => tree.place offset :: placeAll (offset + tree.length) others

end

/-- The chunk that is met of a tree. -/
@[simp]
theorem chunk_place (offset : Nat) (tree : ChunkTree) :
    (tree.place offset).chunk = tree.chunkAt offset := by
  cases tree <;> rfl

/-- The chunk of a tree lies at the offset. -/
@[simp]
theorem offset_chunkAt (offset : Nat) (tree : ChunkTree) : (tree.chunkAt offset).offset = offset := by
  cases tree <;> rfl

mutual

/-- A chunk has an even length. -/
theorem even_length (tree : ChunkTree) : tree.length % 2 = 0 := by
  cases tree with
  | leaf tag body =>
      have hpadded := length_padded body
      simp only [length]
      omega
  | form tag subtype children =>
      have hchildren := even_lengthAll children
      simp only [length]
      omega

/-- Chunks have an even length together. -/
theorem even_lengthAll (trees : List ChunkTree) : lengthAll trees % 2 = 0 := by
  cases trees with
  | nil => rfl
  | cons tree others =>
      have htree := even_length tree
      have hothers := even_lengthAll others
      simp only [lengthAll]
      omega

end

mutual

/-- The length of a chunk is that of its bytes. -/
theorem length_bytes (order : ByteOrder) (tree : ChunkTree) :
    (tree.bytes order).length = tree.length := by
  cases tree with
  | leaf tag body => exact length_chunkBytes order tag body
  | form tag subtype children =>
      have hchildren := length_bytesAll order children
      have heven := even_lengthAll children
      rw [bytes, length_chunkBytes, padded_of_even] <;>
        rw [List.length_append, Tag.length_bytes, hchildren]
      · simp only [length]
        omega
      · omega

/-- The length of some chunks is that of their bytes. -/
theorem length_bytesAll (order : ByteOrder) (trees : List ChunkTree) :
    (bytesAll order trees).length = lengthAll trees := by
  cases trees with
  | nil => rfl
  | cons tree others =>
      rw [bytesAll, List.length_append, length_bytes order tree, length_bytesAll order others]
      rfl

end

/-- The body of a form is not padded. -/
theorem padded_form (order : ByteOrder) (subtype : Tag) (children : List ChunkTree) :
    padded (subtype.bytes ++ bytesAll order children) = subtype.bytes ++ bytesAll order children ∧
      (subtype.bytes ++ bytesAll order children).length = 4 + lengthAll children := by
  have hlength : (subtype.bytes ++ bytesAll order children).length = 4 + lengthAll children := by
    rw [List.length_append, Tag.length_bytes, length_bytesAll]
  have heven := even_lengthAll children
  exact ⟨padded_of_even (by omega), hlength⟩

/-- The bytes inside a chunk behind its tags and size. -/
def contentBytes (order : ByteOrder) : ChunkTree → Bytes
  | .leaf _ body => padded body
  | .form _ _ children => bytesAll order children

/-- The bytes of a chunk are its head and what is inside it. -/
theorem bytes_eq (order : ByteOrder) (tree : ChunkTree) (offset : Nat) :
    tree.bytes order = (tree.chunkAt offset).head order ++ tree.contentBytes order := by
  cases tree with
  | leaf tag body => exact Chunk.chunkBytes_eq order tag body offset
  | form tag subtype children =>
      obtain ⟨hpadded, hlength⟩ := padded_form order subtype children
      rw [bytes, chunkBytes, hpadded, hlength]
      simp only [chunkAt, Chunk.head, contentBytes, List.append_assoc]

/-- Whether a chunk has a second tag is told by its tag. -/
theorem isRegular_chunkAt (offset : Nat) (tree : ChunkTree) : (tree.chunkAt offset).IsRegular := by
  cases tree with
  | leaf tag body => exact tag.property.symm
  | form tag subtype children => exact tag.property.symm

/-- A chunk whose length fits in a word ends behind its bytes. -/
theorem finish_chunkAt {tree : ChunkTree} (hfits : tree.length < 2 ^ 32) (offset : Nat) :
    (tree.chunkAt offset).finish = offset + tree.length := by
  cases tree with
  | leaf tag body =>
      simp only [length] at hfits ⊢
      rw [← Nat.add_assoc]
      exact Chunk.finish_ofBody (by omega)
  | form tag subtype children =>
      simp only [length] at hfits ⊢
      have hsize : (UInt32.ofNat (4 + lengthAll children)).toNat = 4 + lengthAll children :=
        UInt32.toNat_ofNat_of_lt' (show _ < 2 ^ 32 by omega)
      simp only [chunkAt, Chunk.finish, Chunk.body, Chunk.headerLength, hsize]
      omega

/-- A form that is open at the end is closed behind the chunks that are written inside it. -/
theorem close_writeAll {sink : Sink} {tag subtype : Tag} {children : List ChunkTree}
    {placements : List Placement} (hfits : 4 + lengthAll children < 2 ^ 32)
    (hchildren : writeAll children (sink.append (tag.bytes ++ [0, 0, 0, 0] ++ subtype.bytes)) =
      (.ok placements, (sink.append (tag.bytes ++ [0, 0, 0, 0] ++ subtype.bytes)).append
        (bytesAll sink.order children))) :
    (do
        let inside ← writeAll children
        let size ← Writing.close ⟨tag, sink.data.length⟩
        return (⟨tag, sink.data.length⟩, size) :: inside : Writing (List Placement))
      (sink.append (tag.bytes ++ [0, 0, 0, 0] ++ subtype.bytes)) =
      (.ok ((⟨tag, sink.data.length⟩, UInt32.ofNat (4 + lengthAll children)) :: placements),
        sink.append (chunkBytes sink.order tag (subtype.bytes ++ bytesAll sink.order children))) := by
  obtain ⟨hpadded, hlength⟩ := padded_form sink.order subtype children
  have hbody : (padded (subtype.bytes ++ bytesAll sink.order children)).length < 2 ^ 32 := by
    rw [hpadded, hlength]
    exact hfits
  rw [Sink.append_append, List.append_assoc _ subtype.bytes] at hchildren
  rw [run_bind_of_eq hchildren,
    run_bind_of_eq (Writing.close_append_eq_ok.mpr ⟨hbody, rfl, rfl⟩), hpadded, hlength]
  rfl

/-- Behind the head of a form twelve bytes more are written. -/
theorem length_opened (sink : Sink) (tag subtype : Tag) :
    (sink.append (tag.bytes ++ [0, 0, 0, 0] ++ subtype.bytes)).data.length =
      sink.data.length + 12 := by
  simp [Sink.append, Sink.withData]

mutual

/-- A tree is written at the end of a file, and its chunks are placed where the file ended. -/
theorem write_eq {sink : Sink} (hend : sink.AtEnd) (tree : ChunkTree)
    (hfits : tree.length < 2 ^ 32) :
    tree.write sink = (.ok ((tree.place sink.data.length).chunks.map (·.placement)),
      sink.append (tree.bytes sink.order)) := by
  cases tree with
  | leaf tag body =>
      have hbody : (padded body).length < 2 ^ 32 := by
        simp only [length] at hfits
        omega
      rw [write, run_bind_of_eq (Writing.openChunk_eq hend tag),
        run_bind_of_eq (Writing.bytes_eq (Sink.atEnd_append _ _) body), Sink.append_append,
        run_bind_of_eq (Writing.close_append_eq_ok.mpr ⟨hbody, rfl, rfl⟩)]
      rfl
  | form tag subtype children =>
      simp only [length] at hfits
      have hchildren := writeAll_eq
        (Sink.atEnd_append sink (tag.val.bytes ++ [0, 0, 0, 0] ++ subtype.val.bytes)) children
        (by omega)
      rw [length_opened] at hchildren
      rw [write, run_bind_of_eq (Writing.openForm_eq hend tag subtype.property)]
      exact close_writeAll (by omega) hchildren

/-- Trees are written one after another at the end of a file. -/
theorem writeAll_eq {sink : Sink} (hend : sink.AtEnd) (trees : List ChunkTree)
    (hfits : lengthAll trees < 2 ^ 32) :
    writeAll trees sink =
      (.ok ((FoundTree.chunksAll (placeAll sink.data.length trees)).map (·.placement)),
        sink.append (bytesAll sink.order trees)) := by
  cases trees with
  | nil =>
      rw [bytesAll, Sink.append_nil hend]
      rfl
  | cons tree others =>
      simp only [lengthAll] at hfits
      have hbehind : (sink.append (tree.bytes sink.order)).data.length =
          sink.data.length + tree.length := by
        simp [Sink.append, Sink.withData, length_bytes]
      rw [writeAll, run_bind_of_eq (write_eq hend tree (by omega)),
        run_bind_of_eq (writeAll_eq (Sink.atEnd_append ..) others (by omega)), Sink.append_append,
        hbehind, placeAll, FoundTree.chunksAll, List.map_append]
      rfl

end

mutual

/-- What is met of a tree is the tree. -/
theorem matches_place (offset : Nat) (tree : ChunkTree) : tree.Matches (tree.place offset) := by
  cases tree with
  | leaf tag body => exact ⟨rfl, rfl, rfl⟩
  | form tag subtype children => exact ⟨rfl, rfl, matchAll_placeAll (offset + 12) children⟩

/-- What is met of some trees are the trees. -/
theorem matchAll_placeAll (offset : Nat) (trees : List ChunkTree) :
    MatchAll trees (placeAll offset trees) := by
  cases trees with
  | nil => trivial
  | cons tree others =>
      exact ⟨matches_place offset tree, matchAll_placeAll (offset + tree.length) others⟩

end

/-- A chunk whose length fits in a word has an even size. -/
theorem even_size {tree : ChunkTree} (hfits : tree.length < 2 ^ 32) (offset : Nat) :
    (tree.chunkAt offset).size.toNat % 2 = 0 := by
  have hfinish := finish_chunkAt hfits offset
  have heven := even_length tree
  simp only [Chunk.finish, Chunk.body, Chunk.headerLength, offset_chunkAt] at hfinish
  omega

mutual

/-- Every chunk of a tree ends where its content does. -/
theorem isTiled_place {tree : ChunkTree} (hfits : tree.length < 2 ^ 32) (offset : Nat) :
    (tree.place offset).IsTiled := by
  have hsize := even_size hfits offset
  have hfinish := finish_chunkAt hfits offset
  cases tree with
  | leaf tag body =>
      refine ⟨hsize, ?_⟩
      rw [hfinish, length, ← Nat.add_assoc]
      rfl
  | form tag subtype children =>
      simp only [length] at hfits hfinish
      refine ⟨hsize, ?_⟩
      rw [hfinish, ← Nat.add_assoc]
      exact areTiled_placeAll (by omega) (offset + 12)

/-- Trees that lie one after another leave no gap. -/
theorem areTiled_placeAll {trees : List ChunkTree} (hfits : lengthAll trees < 2 ^ 32)
    (start : Nat) :
    FoundTree.AreTiled start (start + lengthAll trees) (placeAll start trees) := by
  cases trees with
  | nil => rfl
  | cons tree others =>
      simp only [lengthAll] at hfits
      have htree : tree.length < 2 ^ 32 := by omega
      refine ⟨?_, isTiled_place htree start, ?_⟩
      · rw [chunk_place, offset_chunkAt]
      · rw [chunk_place, finish_chunkAt htree, lengthAll, ← Nat.add_assoc]
        exact areTiled_placeAll (by omega) (start + tree.length)

end

end ChunkTree

namespace Reading

/-- What is inside a chunk is read closer to its end than the chunk was met to the end of the other. -/
theorem finish_sub_lt_of_after {source after : Source} {parent chunk : Chunk}
    (h : next? parent source = (.ok (some chunk), after)) :
    chunk.finish - after.position < parent.finish - source.position := by
  obtain ⟨hoffset, hfinish⟩ := bounds_of_next? h
  rw [after_of_next? h]
  simp only [Chunk.finish, Chunk.content, Chunk.body, Chunk.headerLength] at hfinish ⊢
  split <;> omega

/-- The chunks inside another from the position on, with what is inside them: each is entered, read
and left again, up to where no header fits. -/
def treesFrom (parent : Chunk) (source : Source) : Except ChunkFault (List FoundTree) × Source :=
  match h : next? parent source with
  | (.error fault, after) => (.error fault, after)
  | (.ok none, after) => (.ok [], after)
  | (.ok (some chunk), after) =>
    have := finish_sub_lt_of_next? h
    have := finish_sub_lt_of_after h
    let (inside, last) : Except ChunkFault FoundTree × Source :=
      if chunk.tag.isForm then
        let (children, last) := treesFrom chunk after
        (children.map (.form chunk), last)
      else
        let (bytes, last) := content chunk after
        (bytes.map (.leaf chunk), last)
    match inside with
    | .error fault => (.error fault, last)
    | .ok tree =>
      let (others, last) := treesFrom parent { last with position := chunk.finish }
      (others.map (tree :: ·), last)
termination_by parent.finish - source.position

/-- Reads a root form with everything inside it. -/
def rootTree : Reading FoundTree := do
  let root ← openRoot
  let children ← (treesFrom root : Reading (List FoundTree))
  return .form root children

/-- Where there is no next chunk there are no more trees. -/
theorem treesFrom_of_none {parent : Chunk} {source after : Source}
    (h : next? parent source = (.ok none, after)) : treesFrom parent source = (.ok [], after) := by
  unfold treesFrom
  split
  · rename_i hnext
    cases h.symm.trans hnext
  · rename_i hnext
    cases h.symm.trans hnext
    rfl
  · rename_i hnext
    cases h.symm.trans hnext

/-- The next chunk is read as what its tag says it is, and followed by those behind it. -/
theorem treesFrom_of_some {parent chunk : Chunk} {source after middle last : Source}
    {tree : FoundTree} {others : List FoundTree}
    (h : next? parent source = (.ok (some chunk), after))
    (hinside : (chunk.tag.isForm = true ∧
        ∃ children, treesFrom chunk after = (.ok children, middle) ∧ tree = .form chunk children) ∨
      (chunk.tag.isForm = false ∧
        ∃ bytes, content chunk after = (.ok bytes, middle) ∧ tree = .leaf chunk bytes))
    (hothers : treesFrom parent { middle with position := chunk.finish } = (.ok others, last)) :
    treesFrom parent source = (.ok (tree :: others), last) := by
  rw [treesFrom]
  split
  · rename_i hnext
    cases h.symm.trans hnext
  · rename_i hnext
    cases h.symm.trans hnext
  · rename_i hnext
    cases h.symm.trans hnext
    rcases hinside with ⟨hform, children, hchildren, rfl⟩ | ⟨hform, bytes, hbytes, rfl⟩
    · simp only [hform, if_true, hchildren, Except.map, hothers]
    · simp only [hform, Bool.false_eq_true, if_false, hbytes, Except.map, hothers]

/-- A tree that lies ahead is met as its chunk. Its content lies ahead behind the head of the chunk, and
what is behind the tree lies ahead from the end of the chunk. -/
theorem next?_of_tree (tree : ChunkTree) {source : Source} {parent : Chunk} {behind : Bytes}
    (hlength : tree.length < 2 ^ 32) (hinside : source.position + tree.length ≤ parent.finish)
    (h : source.rest = tree.bytes source.order ++ behind) :
    let chunk := tree.chunkAt source.position
    next? parent source = (.ok (some chunk), { source with position := chunk.content }) ∧
      Source.rest { source with position := chunk.content } =
        tree.contentBytes source.order ++ behind ∧
      Source.rest { source with position := chunk.finish } = behind := by
  intro chunk
  have hfinish : chunk.finish = source.position + tree.length :=
    ChunkTree.finish_chunkAt hlength source.position
  have hcontent : source.position + (chunk.head source.order).length = chunk.content := by
    rw [← chunk.length_head source.order, tree.offset_chunkAt]
  have hhead : source.rest = chunk.head source.order ++
      (tree.contentBytes source.order ++ behind) := by
    rw [h, tree.bytes_eq source.order source.position, List.append_assoc]
  have hafterHead := Source.rest_advance hhead rfl
  have hbehind := Source.rest_advance h (tree.length_bytes source.order)
  rw [Source.advance, hcontent] at hafterHead
  rw [Source.advance, ← hfinish] at hbehind
  exact ⟨next?_of_rest (tree.isRegular_chunkAt _) (tree.offset_chunkAt _) (by omega) hhead,
    hafterHead, hbehind⟩

/-- Trees that lie ahead, up to the end of a chunk, are the trees inside it. -/
theorem treesFrom_of_rest (trees : List ChunkTree) {source : Source} {parent : Chunk}
    {behind : Bytes} (hfits : ChunkTree.lengthAll trees < 2 ^ 32)
    (hfinish : parent.finish = source.position + ChunkTree.lengthAll trees)
    (hrest : source.rest = ChunkTree.bytesAll source.order trees ++ behind) :
    treesFrom parent source =
      (.ok (ChunkTree.placeAll source.position trees),
        { source with position := parent.finish }) := by
  cases trees with
  | nil =>
      rw [ChunkTree.lengthAll, Nat.add_zero] at hfinish
      rw [treesFrom_of_none (next?_of_end (by rw [hfinish, Chunk.headerLength]; omega)), hfinish]
      rfl
  | cons tree others =>
      simp only [ChunkTree.lengthAll] at hfits hfinish
      rw [ChunkTree.bytesAll, List.append_assoc] at hrest
      let chunk := tree.chunkAt source.position
      have hchunk : chunk.finish = source.position + tree.length :=
        ChunkTree.finish_chunkAt (by omega) source.position
      have hbefore : source.position + tree.length ≤ parent.finish := by omega
      obtain ⟨hnext, hinside, hbehind⟩ := next?_of_tree tree (by omega) hbefore hrest
      have hothers : treesFrom parent { source with position := chunk.finish } =
          (.ok (ChunkTree.placeAll (source.position + tree.length) others),
            { source with position := parent.finish }) := by
        rw [← hchunk]
        exact treesFrom_of_rest others (by omega) (by rw [hfinish, hchunk, Nat.add_assoc]) hbehind
      -- Reading what is inside the chunk ends where the chunk does, from where the others follow.
      cases tree with
      | leaf tag body =>
          have hbody : (padded body).length < 2 ^ 32 := by
            simp only [ChunkTree.length] at hfits
            omega
          have hcontent : content chunk { source with position := chunk.content } =
              (.ok (padded body), { source with position := chunk.finish }) := by
            obtain ⟨-, -, -, hcontent⟩ :=
              @content_of_chunkBytes _ _ _ _ { source with position := chunk.content } _
                tag.property hbody hrest
            exact hcontent
          exact treesFrom_of_some hnext (.inr ⟨tag.property, _, hcontent, rfl⟩) hothers
      | form tag subtype children =>
          simp only [ChunkTree.length] at hfits hchunk
          have hchildren : treesFrom chunk { source with position := chunk.content } =
              (.ok (ChunkTree.placeAll (source.position + 12) children),
                { source with position := chunk.finish }) := by
            refine treesFrom_of_rest children (by omega) ?_ hinside
            rw [hchunk, ← Nat.add_assoc]
            rfl
          exact treesFrom_of_some hnext (.inl ⟨tag.property, _, hchildren, rfl⟩) hothers

end Reading

namespace RootTree

/-- The number of bytes of a root form. -/
def length (tree : RootTree) : Nat :=
  12 + ChunkTree.lengthAll tree.children

/-- Writes a root form and everything inside it. -/
def write (tree : RootTree) : Writing (List Placement) := do
  let mark ← Writing.openForm .form (.ofOrder tree.order)
  let placements ← ChunkTree.writeAll tree.children
  let size ← Writing.close mark
  return (mark, size) :: placements

/-- What was met is the root form that was to be written, with everything inside it. -/
def Matches (tree : RootTree) : FoundTree → Prop
  | .leaf _ _ => False
  | .form chunk children =>
    chunk.tag = .form ∧ chunk.subtype = some (.ofOrder tree.order) ∧
      ChunkTree.MatchAll tree.children children

/-- The root chunk. -/
def chunk (tree : RootTree) : Chunk :=
  ⟨.form, some (.ofOrder tree.order), 0, UInt32.ofNat (4 + ChunkTree.lengthAll tree.children)⟩

/-- What is met of a root form. -/
def place (tree : RootTree) : FoundTree :=
  .form tree.chunk (ChunkTree.placeAll 12 tree.children)

/-- The bytes of a root form are the head of its chunk and the chunks inside it. -/
def bytes (tree : RootTree) : Bytes :=
  tree.chunk.head tree.order ++ ChunkTree.bytesAll tree.order tree.children

/-- The length of a root form is that of its bytes. -/
theorem length_bytes (tree : RootTree) : tree.bytes.length = tree.length := by
  rw [bytes, List.length_append, ChunkTree.length_bytesAll]
  simp [chunk, Chunk.head, length]

/-- A root form whose length fits in a word ends behind its bytes. -/
theorem finish_chunk {tree : RootTree} (hfits : tree.length < 2 ^ 32) :
    tree.chunk.finish = tree.length := by
  simp only [length] at hfits ⊢
  have hsize : (UInt32.ofNat (4 + ChunkTree.lengthAll tree.children)).toNat =
      4 + ChunkTree.lengthAll tree.children :=
    UInt32.toNat_ofNat_of_lt' (show _ < 2 ^ 32 by omega)
  simp only [chunk, Chunk.finish, Chunk.body, Chunk.headerLength, hsize]
  omega

/-- A root form is written whatever byte order was assumed before. -/
theorem write_eq {tree : RootTree} (hfits : tree.length < 2 ^ 32) (start : ByteOrder) :
    tree.write (.start start) =
      (.ok (tree.place.chunks.map (·.placement)), (Sink.start tree.order).append tree.bytes) := by
  simp only [length] at hfits
  have hopen : Writing.openForm .form (.ofOrder tree.order) (.start start) =
      (.ok ⟨.form, 0⟩, (Sink.start tree.order).append
        (Tag.form.bytes ++ [0, 0, 0, 0] ++ (Tag.ofOrder tree.order).bytes)) := by
    cases tree.order <;> rfl
  have hchildren := ChunkTree.writeAll_eq (Sink.atEnd_append (.start tree.order)
    (Tag.form.bytes ++ [0, 0, 0, 0] ++ (Tag.ofOrder tree.order).bytes)) tree.children (by omega)
  rw [ChunkTree.length_opened] at hchildren
  obtain ⟨hpadded, hlength⟩ :=
    ChunkTree.padded_form tree.order (.ofOrder tree.order) tree.children
  have hbytes : chunkBytes tree.order .form
      ((Tag.ofOrder tree.order).bytes ++ ChunkTree.bytesAll tree.order tree.children) =
        tree.bytes := by
    rw [chunkBytes, hpadded, hlength]
    simp only [bytes, chunk, Chunk.head, List.append_assoc]
  have hclose := ChunkTree.close_writeAll (by omega) hchildren
  rw [write, run_bind_of_eq hopen, ← hbytes]
  exact hclose

/-- A root form is read whatever byte order is assumed before. -/
theorem rootTree_eq {tree : RootTree} (hfits : tree.length < 2 ^ 32) (start : ByteOrder) :
    Reading.rootTree (.start start tree.bytes) =
      (.ok tree.place, ⟨tree.bytes, tree.length, tree.order⟩) := by
  have hopen := Reading.openRoot_of_data (rfl : tree.bytes = tree.chunk.head tree.order ++ _) start
  have hrest : Source.rest ⟨tree.bytes, 12, tree.order⟩ =
      ChunkTree.bytesAll tree.order tree.children ++ [] := by
    rw [List.append_nil]
    exact List.drop_left' (by simp [chunk, Chunk.head])
  have hfinish := finish_chunk hfits
  have hchildren := Reading.treesFrom_of_rest tree.children
    (by simp only [length] at hfits; omega) hfinish hrest
  rw [hfinish] at hchildren
  rw [Reading.rootTree, run_bind_of_eq hopen]
  exact run_bind_of_eq hchildren

/-- Trees of chunks are read back. Whatever byte orders a writer and a reader start with, a root form
that fits in four gigabytes is written, and what is read of the file is the root form: the same tags in
the same shape, with a zero behind each content of odd length. Each chunk is where its mark says and
has the size that closing it gave, which is even and reaches to the next chunk behind it; the root form
reaches to the end of the file. -/
theorem rootTree_write (tree : RootTree) (hfits : tree.length < 2 ^ 32) (first second : ByteOrder) :
    ∃ placements sink found after,
      tree.write (.start first) = (.ok placements, sink) ∧
      Reading.rootTree (.start second sink.data) = (.ok found, after) ∧
      tree.Matches found ∧ found.chunks.map (·.placement) = placements ∧ found.IsTiled ∧
      found.chunk.offset = 0 ∧ found.chunk.finish = sink.data.length ∧
      sink.data.length = tree.length ∧ after.order = tree.order := by
  have hfinish := finish_chunk hfits
  have heven := ChunkTree.even_lengthAll tree.children
  refine ⟨_, _, tree.place, _, write_eq hfits first, rootTree_eq hfits second,
    ⟨rfl, rfl, ChunkTree.matchAll_placeAll 12 tree.children⟩, rfl, ⟨?_, ?_⟩, rfl, ?_,
    length_bytes tree, rfl⟩
  · simp only [Chunk.finish, Chunk.body, Chunk.headerLength] at hfinish
    simp only [length] at hfinish
    have hoffset : tree.chunk.offset = 0 := rfl
    omega
  · rw [hfinish]
    exact ChunkTree.areTiled_placeAll (by simp only [length] at hfits; omega) 12
  · exact hfinish.trans (length_bytes tree).symm

/-- A root form with a content of odd length, an empty one and a form inside a list. -/
theorem rootTree_write_nested :
    ∃ placements sink found after,
      RootTree.write ⟨.little, [.leaf ⟨.header, rfl⟩ [1, 2, 3],
        .form ⟨.list, rfl⟩ ⟨.mediaList, rfl⟩ [.leaf ⟨.info, rfl⟩ [],
          .form ⟨.form, rfl⟩ ⟨.group, rfl⟩ []]]⟩ (.start .big) = (.ok placements, sink) ∧
      Reading.rootTree (.start .big sink.data) = (.ok found, after) ∧ found.IsTiled ∧
      found.chunks.map (·.placement) = [(⟨.form, 0⟩, 48), (⟨.header, 12⟩, 4), (⟨.list, 24⟩, 24),
        (⟨.info, 36⟩, 0), (⟨.form, 44⟩, 4)] ∧
      found.chunk.finish = 56 ∧ after.order = .little := by
  obtain ⟨placements, sink, found, after, hwrite, hread, -, hplacements, htiled, -, hfinish, hlength,
    horder⟩ := rootTree_write ⟨.little, [.leaf ⟨.header, rfl⟩ [1, 2, 3],
      .form ⟨.list, rfl⟩ ⟨.mediaList, rfl⟩ [.leaf ⟨.info, rfl⟩ [],
        .form ⟨.form, rfl⟩ ⟨.group, rfl⟩ []]]⟩ (by decide) .big .big
  refine ⟨placements, sink, found, after, hwrite, hread, htiled, ?_, hfinish.trans hlength, horder⟩
  rw [hplacements]
  cases hwrite
  rfl

end RootTree

end StageArchive
