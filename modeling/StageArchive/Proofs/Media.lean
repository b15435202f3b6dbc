import StageArchive.Media
import StageArchive.Proofs.Chunk.Source
/-!
# Media lists as chunks

A media list that can be read is one form that spans its file, so a container can take the file as
it stands. A list that can be written is such a form, and it is read back.
-/

namespace StageArchive.MediaList

/-- The file of a media list is a chunk. -/
theorem eq_head_of_decode {order : ByteOrder} {data : Bytes} {media : MediaList}
    (h : decode order data = .ok media) :
    ∃ size content, data = Chunk.head order ⟨.list, some .mediaList, 0, size⟩ ++ content ∧
      8 + size.toNat = data.length := by
  have hrun : (do
      let list ← Reading.descendForm .list .mediaList
      if list.finish ≠ data.length then throw (.lengthMismatch list.finish data.length)
      read list : Reading MediaList) (.start order data) = (.ok media, _) := Prod.ext h rfl
  obtain ⟨⟨tag, subtype, offset, size⟩, entered, hform, hrun⟩ := run_bind_eq_ok.mp hrun
  obtain ⟨htag, hsubtype, hoffset, hrest⟩ := Reading.rest_of_descendForm hform
  obtain rfl : tag = .list := htag
  obtain rfl : offset = 0 := hoffset
  split at hrun
  · cases hrun
  · rename_i hfinish
    have hfinish : Chunk.finish ⟨.list, subtype, 0, size⟩ = data.length :=
      Decidable.of_not_not hfinish
    have hsize : 8 + size.toNat = data.length := by
      rw [← hfinish, Chunk.finish, Chunk.body, Nat.zero_add]
      rfl
    cases subtype with
    | none => cases hsubtype
    | some found =>
        obtain rfl : found = .mediaList := hsubtype
        exact ⟨size, _, hrest, hsize⟩

/-- The body of the chunk of a reference. -/
def referenceBody (order : ByteOrder) (reference : MediaReference) : Bytes :=
  order.encode reference.flags ++ (reference.kind.bytes ++
    (order.encode (UInt32.ofNat reference.data.length) ++ reference.data))

/-- The body of the chunk with the fixed fields of a list. -/
def infoBody (order : ByteOrder) (media : MediaList) : Bytes :=
  order.encode media.flags ++ (order.encode media.mediaType ++
    order.encode (UInt32.ofNat media.references.length))

/-- The chunks of references, one after another. -/
def referenceChunks (order : ByteOrder) (references : List MediaReference) : Bytes :=
  references.flatMap fun reference => chunkBytes order .reference (referenceBody order reference)

/-- The chunk of the first reference comes before those of the others. -/
theorem referenceChunks_cons (order : ByteOrder) (reference : MediaReference)
    (references : List MediaReference) :
    referenceChunks order (reference :: references) =
      chunkBytes order .reference (referenceBody order reference) ++
        referenceChunks order references := rfl

/-- What the form of a list holds behind its tags. -/
def inside (order : ByteOrder) (media : MediaList) : Bytes :=
  Tag.mediaList.bytes ++ (chunkBytes order .info (media.infoBody order) ++
    referenceChunks order media.references)

/-- The bytes of a list. -/
def bytes (order : ByteOrder) (media : MediaList) : Bytes :=
  chunkBytes order .list (media.inside order)

/-- Whether the form of a list has a size that fits in a word. -/
def Fits (order : ByteOrder) (media : MediaList) : Prop :=
  (padded (media.inside order)).length < 2 ^ 32

/-- The body of the chunk of a reference has twelve bytes before the data. -/
theorem length_referenceBody (order : ByteOrder) (reference : MediaReference) :
    (referenceBody order reference).length = 12 + reference.data.length := by
  simp only [referenceBody, List.length_append, ByteOrder.length_encode, Tag.length_bytes]
  omega

/-- The body of the chunk with the fixed fields has twelve bytes. -/
theorem length_infoBody (order : ByteOrder) (media : MediaList) :
    (media.infoBody order).length = 12 := by
  simp only [infoBody, List.length_append, ByteOrder.length_encode]

/-- The chunk of a reference is among the chunks of references. -/
theorem length_le_referenceChunks (order : ByteOrder) {references : List MediaReference}
    {reference : MediaReference} (h : reference ∈ references) :
    (chunkBytes order .reference (referenceBody order reference)).length ≤
      (referenceChunks order references).length := by
  obtain ⟨front, back, rfl⟩ := List.append_of_mem h
  rw [referenceChunks, List.flatMap_append, List.flatMap_cons, List.length_append,
    List.length_append]
  omega

/-- There are no more references than bytes of their chunks. -/
theorem count_le_referenceChunks (order : ByteOrder) (references : List MediaReference) :
    references.length ≤ (referenceChunks order references).length := by
  induction references with
  | nil => exact Nat.le_refl 0
  | cons reference references ih =>
      have hchunk := length_chunkBytes order .reference (referenceBody order reference)
      rw [List.length_cons, referenceChunks_cons, List.length_append]
      omega

/-- The chunks of the references of a list lie inside its form. -/
theorem length_referenceChunks_le (order : ByteOrder) (media : MediaList) :
    (referenceChunks order media.references).length ≤ (padded (media.inside order)).length := by
  rw [length_padded, inside, List.length_append, List.length_append]
  omega

/-- A list that fits has no more references than a word can count. -/
theorem Fits.count_lt {order : ByteOrder} {media : MediaList} (h : media.Fits order) :
    media.references.length < 2 ^ 32 :=
  Nat.lt_of_le_of_lt (Nat.le_trans (count_le_referenceChunks order media.references)
    (length_referenceChunks_le order media)) h

/-- The chunk of every reference of a list that fits has a size that fits in a word. -/
theorem Fits.body_lt {order : ByteOrder} {media : MediaList} (h : media.Fits order)
    {reference : MediaReference} (hmem : reference ∈ media.references) :
    (padded (referenceBody order reference)).length < 2 ^ 32 := by
  have hfits : (padded (media.inside order)).length < 2 ^ 32 := h
  have hchunk := length_le_referenceChunks order hmem
  have hinside := length_referenceChunks_le order media
  rw [length_chunkBytes] at hchunk
  omega

/-- Data whose chunk has a size that fits in a word have a length that does. -/
theorem data_lt_of_body_lt {order : ByteOrder} {reference : MediaReference}
    (h : (padded (referenceBody order reference)).length < 2 ^ 32) :
    reference.data.length < 2 ^ 32 := by
  rw [length_padded, length_referenceBody] at h
  omega

/-- A reference is written when the size of its chunk fits in a word; its chunk is added. -/
theorem writeReference_eq_ok {sink after : Sink} {reference : MediaReference} (hend : sink.AtEnd) :
    writeReference reference sink = (.ok (), after) ↔
      (padded (referenceBody sink.order reference)).length < 2 ^ 32 ∧
        after =
          sink.append (chunkBytes sink.order .reference (referenceBody sink.order reference)) := by
  -- Data that is too long is refused before anything is written, and its chunk would not fit
  -- either.
  by_cases hlength : 2 ^ 32 ≤ reference.data.length
  · rw [writeReference, if_pos hlength]
    constructor
    · intro h
      cases h
    · rintro ⟨hfits, -⟩
      exact absurd (data_lt_of_body_lt hfits) (Nat.not_lt_of_le hlength)
  · rw [writeReference, if_neg hlength]
    show (do
        let mark ← Writing.openChunk .reference
        Writing.word reference.flags
        Writing.tag reference.kind
        Writing.word (UInt32.ofNat reference.data.length)
        Writing.bytes reference.data
        let _ ← Writing.close mark : Writing Unit) sink = (.ok (), after) ↔ _
    rw [run_bind_of_eq (Writing.openChunk_eq hend .reference),
      run_bind_of_eq (Writing.word_eq (Sink.atEnd_append _ _) _),
      run_bind_of_eq (Writing.tag_eq (Sink.atEnd_append _ _) _),
      run_bind_of_eq (Writing.word_eq (Sink.atEnd_append _ _) _),
      run_bind_of_eq (Writing.bytes_eq (Sink.atEnd_append _ _) _), Sink.append_append,
      Sink.append_append, Sink.append_append, Sink.append_append, run_bind_eq_ok]
    constructor
    · rintro ⟨size, last, hclose, h⟩
      cases h
      have hclose : Writing.close ⟨.reference, sink.data.length⟩
          (sink.append (Tag.reference.bytes ++ [0, 0, 0, 0] ++ referenceBody sink.order reference)) =
            (.ok size, after) := hclose
      obtain ⟨hfits, -, rfl⟩ := Writing.close_append_eq_ok.mp hclose
      exact ⟨hfits, rfl⟩
    · rintro ⟨hfits, rfl⟩
      exact ⟨_, _, Writing.close_append_eq_ok.mpr ⟨hfits, rfl, rfl⟩, rfl⟩

/-- References are written when the sizes of their chunks fit in words; their chunks are added, one after
another. -/
theorem forM_writeReference_eq_ok {references : List MediaReference} {sink after : Sink}
    (hend : sink.AtEnd) :
    references.forM writeReference sink = (.ok (), after) ↔
      (∀ reference ∈ references,
        (padded (referenceBody sink.order reference)).length < 2 ^ 32) ∧
        after = sink.append (referenceChunks sink.order references) := by
  induction references generalizing sink with
  | nil =>
      rw [show referenceChunks sink.order [] = [] from rfl, Sink.append_nil hend]
      constructor
      · intro h
        cases h
        exact ⟨nofun, rfl⟩
      · rintro ⟨-, rfl⟩
        rfl
  | cons reference references ih =>
      have hafter : (sink.append (chunkBytes sink.order .reference
          (referenceBody sink.order reference))).append (referenceChunks sink.order references) =
            sink.append (referenceChunks sink.order (reference :: references)) :=
        Sink.append_append sink _ _
      rw [List.forall_mem_cons, ← hafter]
      refine run_bind_eq_ok.trans ?_
      constructor
      · rintro ⟨_, middle, hfirst, h⟩
        obtain ⟨hfits, rfl⟩ := (writeReference_eq_ok hend).mp hfirst
        obtain ⟨hothers, rfl⟩ := (ih (Sink.atEnd_append _ _)).mp h
        exact ⟨⟨hfits, hothers⟩, rfl⟩
      · rintro ⟨⟨hfits, hothers⟩, rfl⟩
        exact ⟨(), _, (writeReference_eq_ok hend).mpr ⟨hfits, rfl⟩,
          (ih (Sink.atEnd_append _ _)).mpr ⟨hothers, rfl⟩⟩

/-- The chunk with the fixed fields is added, whatever is written behind it. -/
theorem run_info {α : Type} {sink : Sink} (hend : sink.AtEnd) (media : MediaList)
    (behind : Writing α) :
    (do
        let info ← Writing.openChunk .info
        Writing.word media.flags
        Writing.word media.mediaType
        Writing.word (UInt32.ofNat media.references.length)
        let _ ← Writing.close info
        behind : Writing α) sink =
      behind (sink.append (chunkBytes sink.order .info (media.infoBody sink.order))) := by
  have hfits : (padded (media.infoBody sink.order)).length < 2 ^ 32 := by
    rw [length_padded, length_infoBody]
    decide
  have hclose : Writing.close ⟨.info, sink.data.length⟩
      (sink.append (Tag.info.bytes ++ [0, 0, 0, 0] ++ media.infoBody sink.order)) =
        (.ok _, sink.append (chunkBytes sink.order .info (media.infoBody sink.order))) :=
    Writing.close_append_eq_ok.mpr ⟨hfits, rfl, rfl⟩
  rw [run_bind_of_eq (Writing.openChunk_eq hend .info),
    run_bind_of_eq (Writing.word_eq (Sink.atEnd_append _ _) _),
    run_bind_of_eq (Writing.word_eq (Sink.atEnd_append _ _) _),
    run_bind_of_eq (Writing.word_eq (Sink.atEnd_append _ _) _), Sink.append_append,
    Sink.append_append, Sink.append_append]
  exact run_bind_of_eq hclose

/-- An empty file in which the form of a list is open and its fixed fields are written. -/
def filled (order : ByteOrder) (media : MediaList) : Sink :=
  ((Sink.start order).append (Tag.list.bytes ++ [0, 0, 0, 0] ++ Tag.mediaList.bytes)).append
    (chunkBytes order .info (media.infoBody order))

/-- With the references behind the fixed fields the form has its body, but not its size. -/
theorem filled_append (order : ByteOrder) (media : MediaList) :
    (media.filled order).append (referenceChunks order media.references) =
      (Sink.start order).append (Tag.list.bytes ++ [0, 0, 0, 0] ++ media.inside order) := by
  rw [filled, Sink.append_append, Sink.append_append, inside,
    ← List.append_assoc _ Tag.mediaList.bytes]

/-- The form of a list is closed when its size fits in a word. -/
theorem close_form_eq_ok {order : ByteOrder} {media : MediaList} {size : UInt32} {after : Sink} :
    Writing.close ⟨.list, (Sink.start order).data.length⟩
        ((media.filled order).append (referenceChunks order media.references)) =
          (.ok size, after) ↔
      media.Fits order ∧ size = UInt32.ofNat (padded (media.inside order)).length ∧
        after = (Sink.start order).append (media.bytes order) := by
  rw [filled_append]
  exact Writing.close_append_eq_ok

/-- A list is written to the end of an empty file when the size of its form fits in a word. -/
theorem write_eq_ok {order : ByteOrder} {media : MediaList} {after : Sink} :
    media.write (.start order) = (.ok (), after) ↔
      media.Fits order ∧ after = (Sink.start order).append (media.bytes order) := by
  by_cases hcount : 2 ^ 32 ≤ media.references.length
  · rw [write, if_pos hcount]
    constructor
    · intro h
      cases h
    · rintro ⟨hfits, -⟩
      exact absurd hfits.count_lt (Nat.not_lt_of_le hcount)
  · have hrun : media.write (.start order) =
        (do
          media.references.forM writeReference
          let _ ← Writing.close ⟨.list, (Sink.start order).data.length⟩ : Writing Unit)
          (media.filled order) := by
      have hend : Sink.AtEnd (.start order) := rfl
      rw [write, if_neg hcount]
      refine (run_bind_of_eq (Writing.openForm_eq hend .list rfl)).trans ?_
      exact run_info (Sink.atEnd_append _ _) media _
    -- What is left is to write the references and to close the form.
    have hreferences {listed : Sink} :
        media.references.forM writeReference (media.filled order) = (.ok (), listed) ↔ _ :=
      forM_writeReference_eq_ok (Sink.atEnd_append _ _)
    rw [hrun, run_bind_eq_ok]
    constructor
    · rintro ⟨_, listed, hlisted, h⟩
      obtain ⟨-, rfl⟩ := hreferences.mp hlisted
      obtain ⟨size, last, hclose, h⟩ := run_bind_eq_ok.mp h
      cases h
      obtain ⟨hfits, -, rfl⟩ := close_form_eq_ok.mp hclose
      exact ⟨hfits, rfl⟩
    · rintro ⟨hfits, hafter⟩
      refine ⟨(), _, hreferences.mpr ⟨fun _ hmem => hfits.body_lt hmem, rfl⟩, ?_⟩
      exact run_bind_eq_ok.mpr ⟨_, _, close_form_eq_ok.mpr ⟨hfits, rfl, hafter⟩, rfl⟩

/-- Exactly the lists that fit can be written, and their bytes are those of their forms. -/
theorem encode_eq_ok {order : ByteOrder} {media : MediaList} {data : Bytes} :
    media.encode order = .ok data ↔ media.Fits order ∧ data = media.bytes order := by
  have hfinish {written : Sink} (h : media.write (.start order) = (.ok (), written)) :
      media.encode order = (Writing.finish written).1 := congrArg Prod.fst (run_bind_of_eq h)
  constructor
  · intro h
    have hrun : (do media.write; Writing.finish : Writing Bytes) (.start order) = (.ok data, _) :=
      Prod.ext h rfl
    obtain ⟨_, written, hwrite, -⟩ := run_bind_eq_ok.mp hrun
    obtain ⟨hfits, rfl⟩ := write_eq_ok.mp hwrite
    exact ⟨hfits, Except.ok.inj (h.symm.trans (hfinish hwrite))⟩
  · rintro ⟨hfits, rfl⟩
    exact hfinish (write_eq_ok.mpr ⟨hfits, rfl⟩)

/-- A list that can be written fits, and its bytes are those of its form. -/
theorem eq_bytes_of_encode {order : ByteOrder} {media : MediaList} {data : Bytes}
    (h : media.encode order = .ok data) :
    media.references.length < 2 ^ 32 ∧
      (∀ reference ∈ media.references, reference.data.length < 2 ^ 32) ∧ media.Fits order ∧
        data = media.bytes order := by
  obtain ⟨hfits, hdata⟩ := encode_eq_ok.mp h
  exact ⟨hfits.count_lt, fun _ hmem => data_lt_of_body_lt (hfits.body_lt hmem), hfits, hdata⟩

section Reading

variable {source : Source} {list : Chunk} {others : Bytes}

/-- A chunk of a list that lies ahead is entered. -/
theorem child_of_rest {name : Tag} {payload : Bytes} (hform : name.isForm = false)
    (hfits : (padded payload).length < 2 ^ 32)
    (hinside : source.position + (chunkBytes source.order name payload).length ≤ list.finish)
    (h : source.rest = chunkBytes source.order name payload ++ others) :
    child list name source =
      (.ok (.ofBody name payload source.position), source.advance Chunk.headerLength) := by
  have hregular : (Chunk.ofBody name payload source.position).IsRegular := hform.symm
  have hfinish := @Chunk.finish_ofBody name payload source.position hfits
  rw [length_chunkBytes] at hinside
  rw [Chunk.chunkBytes_eq source.order name payload source.position, List.append_assoc] at h
  have hbefore : (Chunk.ofBody name payload source.position).finish ≤ list.finish := by omega
  have hnext := Reading.next?_of_rest hregular rfl hbefore h
  rw [child, run_bind_of_eq (Reading.run_position source), run_bind_of_eq hnext]
  have htag : (Chunk.ofBody name payload source.position).tag = name := rfl
  dsimp only
  rw [if_pos htag]
  rfl

/-- Ascending from a chunk passes its bytes. -/
theorem ascend_ofBody {name : Tag} {payload : Bytes} (hfits : (padded payload).length < 2 ^ 32)
    (position : Nat) :
    Reading.ascend (.ofBody name payload source.position) ⟨source.data, position, source.order⟩ =
      (.ok (), source.advance (chunkBytes source.order name payload).length) := by
  rw [length_chunkBytes, Source.advance, ← Nat.add_assoc, ← Chunk.finish_ofBody hfits]
  rfl

/-- A reference that lies ahead is read. -/
theorem readReference_of_rest {reference : MediaReference}
    (hlength : reference.data.length < 2 ^ 32)
    (hfits : (padded (referenceBody source.order reference)).length < 2 ^ 32)
    (hinside : source.position + (chunkBytes source.order .reference
      (referenceBody source.order reference)).length ≤ list.finish)
    (h : source.rest =
      chunkBytes source.order .reference (referenceBody source.order reference) ++ others) :
    readReference list source =
      (.ok reference, source.advance
        (chunkBytes source.order .reference (referenceBody source.order reference)).length) := by
  have hchild := child_of_rest rfl hfits hinside h
  have hsize : (UInt32.ofNat reference.data.length).toNat = reference.data.length :=
    UInt32.toNat_ofNat_of_lt' hlength
  have hcontent :
      (Chunk.ofBody .reference (referenceBody source.order reference)
        source.position).contentLength =
        (padded (referenceBody source.order reference)).length :=
    Chunk.contentLength_ofBody hfits
  have henough : referenceLength + reference.data.length ≤
      (padded (referenceBody source.order reference)).length := by
    rw [length_padded, length_referenceBody, referenceLength]
    omega
  have hbody : (source.advance Chunk.headerLength).rest =
      padded (referenceBody source.order reference) ++ others := Reading.drop_of_chunkBytes h
  rw [padded, referenceBody] at hbody
  simp only [List.append_assoc] at hbody
  -- The fields lie ahead one behind another.
  have hflags := Reading.word_of_rest hbody
  have hafterFlags := Source.rest_advance hbody (ByteOrder.length_encode ..)
  have hkind := Reading.tag_of_rest hafterFlags
  have hafterKind := Source.rest_advance hafterFlags (Tag.length_bytes _)
  have hword := Reading.word_of_rest hafterKind
  have hafterWord := Source.rest_advance hafterKind (ByteOrder.length_encode ..)
  have hdata := Reading.bytes_of_rest hafterWord hsize.symm
  rw [readReference, run_bind_of_eq hchild, if_neg (by omega)]
  refine run_bind_eq_ok.mpr ⟨_, _, hflags, run_bind_eq_ok.mpr ⟨_, _, hkind,
    run_bind_eq_ok.mpr ⟨_, _, hword, ?_⟩⟩⟩
  dsimp only
  rw [if_neg (by omega)]
  exact run_bind_eq_ok.mpr ⟨_, _, hdata,
    run_bind_eq_ok.mpr ⟨_, _, @ascend_ofBody source _ _ hfits _, rfl⟩⟩

/-- References that lie ahead are read. -/
theorem readReferences_of_rest {references : List MediaReference}
    (hlengths : ∀ reference ∈ references, reference.data.length < 2 ^ 32)
    (hinside : source.position + (referenceChunks source.order references).length ≤ list.finish)
    (hlist : list.finish < source.position + 2 ^ 32)
    (h : source.rest = referenceChunks source.order references ++ others) :
    ∃ after, readReferences list references.length source = (.ok references, after) := by
  induction references generalizing source with
  | nil => exact ⟨source, rfl⟩
  | cons reference references ih =>
      rw [referenceChunks_cons, List.append_assoc] at h
      rw [referenceChunks_cons, List.length_append] at hinside
      have hlength := length_chunkBytes source.order .reference (referenceBody source.order reference)
      have hsize : (padded (referenceBody source.order reference)).length < 2 ^ 32 := by omega
      have hbefore : source.position + (chunkBytes source.order .reference
          (referenceBody source.order reference)).length ≤ list.finish := by omega
      have hfirst := readReference_of_rest (hlengths reference (List.mem_cons_self ..)) hsize
        hbefore h
      have hafter := Source.rest_advance h rfl
      have hposition : (source.advance (chunkBytes source.order .reference
          (referenceBody source.order reference)).length).position = source.position + _ := rfl
      obtain ⟨after, hothers⟩ := ih
        (fun other hother => hlengths other (List.mem_cons_of_mem _ hother))
        (by rw [hposition, Nat.add_assoc]; exact hinside) (by omega) hafter
      rw [List.length_cons, readReferences, run_bind_of_eq hfirst]
      exact ⟨after, run_bind_eq_ok.mpr ⟨references, after, hothers, rfl⟩⟩

/-- Fixed fields that lie ahead are read, and behind them as many references as the last field says. -/
theorem read_of_info {media : MediaList} (hcontent : list.content = source.position)
    (hinside : source.position + 20 ≤ list.finish)
    (h : source.rest = chunkBytes source.order .info (media.infoBody source.order) ++ others) :
    read list source =
      (do
        return ⟨media.flags, media.mediaType,
          ← readReferences list (UInt32.ofNat media.references.length).toNat⟩ : Reading MediaList)
        (source.advance 20) := by
  have heven : padded (media.infoBody source.order) = media.infoBody source.order :=
    padded_of_even (by rw [length_infoBody])
  have hlength : (padded (media.infoBody source.order)).length = 12 := by
    rw [heven, length_infoBody]
  have hbytes := length_chunkBytes source.order .info (media.infoBody source.order)
  have hfits : (padded (media.infoBody source.order)).length < 2 ^ 32 := by omega
  -- The source is at the content of the list already.
  have hseek : Reading.seek list.content source = (.ok (), source) := by
    rw [hcontent]
    rfl
  have hchild := @child_of_rest source list _ .info _ rfl hfits (by omega) h
  have hlong : ¬ (Chunk.ofBody .info (media.infoBody source.order)
      source.position).contentLength < infoLength := by
    rw [Chunk.contentLength_ofBody hfits, hlength]
    decide
  have hfields : (source.advance Chunk.headerLength).rest =
      padded (media.infoBody source.order) ++ _ := Reading.drop_of_chunkBytes h
  rw [heven, infoBody, List.append_assoc, List.append_assoc] at hfields
  have hflags := Reading.word_of_rest hfields
  have hafterFlags := Source.rest_advance hfields (ByteOrder.length_encode ..)
  have htype := Reading.word_of_rest hafterFlags
  have hafterType := Source.rest_advance hafterFlags (ByteOrder.length_encode ..)
  have hword := Reading.word_of_rest hafterType
  have hascend := @ascend_ofBody source .info _ hfits (source.position + 8 + 4 + 4 + 4)
  rw [hbytes, hlength] at hascend
  rw [read, run_bind_of_eq hseek, run_bind_of_eq hchild, if_neg hlong]
  exact (run_bind_of_eq hflags).trans <| (run_bind_of_eq htype).trans <|
    (run_bind_of_eq hword).trans (run_bind_of_eq hascend)

/-- A list whose chunks lie ahead is read. -/
theorem read_of_rest {media : MediaList} (hcount : media.references.length < 2 ^ 32)
    (hlengths : ∀ reference ∈ media.references, reference.data.length < 2 ^ 32)
    (hcontent : list.content = source.position)
    (hinside : source.position + 20 + (referenceChunks source.order media.references).length ≤
      list.finish)
    (hlist : list.finish < source.position + 20 + 2 ^ 32)
    (h : source.rest = chunkBytes source.order .info (media.infoBody source.order) ++
      (referenceChunks source.order media.references ++ others)) :
    ∃ after, read list source = (.ok media, after) := by
  have hbytes : (chunkBytes source.order .info (media.infoBody source.order)).length = 20 := by
    rw [length_chunkBytes, length_padded, length_infoBody]
  have hbehind : (source.advance 20).rest = referenceChunks source.order media.references ++ others :=
    Source.rest_advance h hbytes
  obtain ⟨after, hreferences⟩ := @readReferences_of_rest (source.advance 20) list _ _ hlengths
    hinside hlist hbehind
  refine ⟨after, (read_of_info hcontent (by omega) h).trans ?_⟩
  rw [UInt32.toNat_ofNat_of_lt' hcount]
  exact run_bind_eq_ok.mpr ⟨_, _, hreferences, rfl⟩

end Reading

/-- The form of a list. -/
def form (order : ByteOrder) (media : MediaList) : Chunk :=
  ⟨.list, some .mediaList, 0, UInt32.ofNat (padded (media.inside order)).length⟩

/-- What the form of a list holds behind the fixed fields. -/
def behindInfo (order : ByteOrder) (media : MediaList) : Bytes :=
  referenceChunks order media.references ++ padding (media.inside order).length

/-- The padded content of a form is its second tag, the fixed fields and what is behind them. -/
theorem padded_inside (order : ByteOrder) (media : MediaList) :
    padded (media.inside order) = Tag.mediaList.bytes ++
      (chunkBytes order .info (media.infoBody order) ++ media.behindInfo order) := by
  simp only [padded, inside, behindInfo, List.append_assoc]

/-- The bytes of a list are the head of its form, the fixed fields and what is behind them. -/
theorem bytes_eq (order : ByteOrder) (media : MediaList) :
    media.bytes order = (media.form order).head order ++
      (chunkBytes order .info (media.infoBody order) ++ media.behindInfo order) := by
  rw [bytes, chunkBytes, padded_inside, form, Chunk.head, padded_inside, ← List.append_assoc]

/-- The form of a list that fits spans the bytes of the list. -/
theorem finish_form {order : ByteOrder} {media : MediaList} (hfits : media.Fits order) :
    (media.form order).finish = (media.bytes order).length := by
  rw [bytes, length_chunkBytes]
  exact congrArg (8 + ·) (UInt32.toNat_ofNat_of_lt' hfits)

/-- The form of a list at the front of a file is entered. -/
theorem descendForm_of_data {order : ByteOrder} {size : UInt32} {data others : Bytes}
    (hdata : data = Chunk.head order ⟨.list, some .mediaList, 0, size⟩ ++ others) :
    Reading.descendForm .list .mediaList (.start order data) =
      (.ok ⟨.list, some .mediaList, 0, size⟩, ⟨data, 12, order⟩) := by
  have hregular : Chunk.IsRegular ⟨.list, some .mediaList, 0, size⟩ := rfl
  have hheader : Reading.header (.start order data) =
      (.ok ⟨.list, some .mediaList, 0, size⟩, ⟨data, 12, order⟩) :=
    Reading.header_of_rest hregular rfl hdata
  have hdescend : Reading.descend .list (.start order data) =
      (.ok ⟨.list, some .mediaList, 0, size⟩, ⟨data, 12, order⟩) := by
    rw [Reading.descend, run_bind_of_eq hheader]
    rfl
  rw [Reading.descendForm, run_bind_of_eq hdescend]
  rfl

/-- A file with the form of a list at its front is read when the form spans it. -/
theorem decode_of_data {order : ByteOrder} {size : UInt32} {data others : Bytes}
    (hdata : data = Chunk.head order ⟨.list, some .mediaList, 0, size⟩ ++ others) :
    decode order data =
      let list : Chunk := ⟨.list, some .mediaList, 0, size⟩
      if list.finish = data.length then
        (read list ⟨data, 12, order⟩ : Except ChunkFault MediaList × Source).1
      else .error (.lengthMismatch list.finish data.length) := by
  have hrun : decode order data = ((do
      if Chunk.finish ⟨.list, some .mediaList, 0, size⟩ ≠ data.length then
        throw (.lengthMismatch (Chunk.finish ⟨.list, some .mediaList, 0, size⟩) data.length)
      read ⟨.list, some .mediaList, 0, size⟩ : Reading MediaList) ⟨data, 12, order⟩).1 :=
    congrArg Prod.fst (run_bind_of_eq (descendForm_of_data hdata))
  rw [hrun]
  dsimp only
  split
  · rfl
  · rename_i hfinish
    rw [if_pos (Decidable.of_not_not hfinish)]

/-- A list that fits is read back from its bytes. -/
theorem decode_bytes {order : ByteOrder} {media : MediaList} (hfits : media.Fits order) :
    decode order (media.bytes order) = .ok media := by
  have hhead := (media.form order).length_head order
  have hahead : (⟨media.bytes order, 12, order⟩ : Source).rest =
      chunkBytes order .info (media.infoBody order) ++ media.behindInfo order := by
    have hrest : (Source.start order (media.bytes order)).rest = _ := media.bytes_eq order
    exact Source.rest_advance hrest ((Nat.zero_add _).symm.trans hhead)
  have hlength : (media.form order).finish = 8 + (padded (media.inside order)).length := by
    rw [finish_form hfits, bytes, length_chunkBytes]
  have hbehind : (padded (media.inside order)).length =
      24 + (media.behindInfo order).length := by
    have hbody := length_infoBody order media
    rw [padded_inside, List.length_append, List.length_append, length_chunkBytes, length_padded,
      hbody, Tag.length_bytes]
    omega
  have hreferences : (media.behindInfo order).length =
      (referenceChunks order media.references).length + _ := List.length_append
  have hsize : (padded (media.inside order)).length < 2 ^ 32 := hfits
  obtain ⟨after, hread⟩ := @read_of_rest ⟨media.bytes order, 12, order⟩ (media.form order) _ media
    hfits.count_lt (fun _ hmem => data_lt_of_body_lt (hfits.body_lt hmem)) rfl
    (by show 32 + (referenceChunks order media.references).length ≤ _; omega)
    (by show _ < 32 + 2 ^ 32; omega) hahead
  rw [decode_of_data (media.bytes_eq order)]
  exact (if_pos (finish_form hfits)).trans (congrArg Prod.fst hread)

/-- A list that can be written is read back. -/
theorem decode_of_encode {order : ByteOrder} {media : MediaList} {data : Bytes}
    (h : media.encode order = .ok data) : decode order data = .ok media := by
  obtain ⟨hfits, rfl⟩ := encode_eq_ok.mp h
  exact decode_bytes hfits

end StageArchive.MediaList
