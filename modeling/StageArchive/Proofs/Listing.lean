import StageArchive.Listing
import StageArchive.Proofs.Chunk.Walk
import StageArchive.Proofs.Media
/-!
# What can be listed

A listing reads the content of every chunk that is no form by itself and fails with the first that it
cannot take apart. `IsListable` says of a tag and a content that no listing fails there, wherever the
chunk lies; `exists_formLines` that a form is listed when it can be read as trees and all their leaves
are listable.
-/

namespace StageArchive.Listing

variable {listing : Listing} {depth : Nat} {order : ByteOrder} {source after : Source}
  {chunk : Chunk} {bytes : Bytes}

/-- No listing in a byte order fails at a chunk with a tag and a content. -/
def IsListable (order : ByteOrder) (tag : Tag) (bytes : Bytes) : Prop :=
  ∀ (listing : Listing) (depth : Nat) (source after : Source) (chunk : Chunk),
    source.order = order → chunk.tag = tag → Reading.content chunk source = (.ok bytes, after) →
      ∃ lines, listing.leafLines depth source chunk = .ok lines

/-- What a step of reading gives is what it gives a listing. -/
theorem reading_of_eq {α : Type} {step : Reading α} {value : α}
    (h : step source = (.ok value, after)) : reading source step = .ok value :=
  congrArg (fun outcome => outcome.1.mapError ListingFault.container) h

/-- A step that fails has no listing. -/
theorem reading_of_error {α : Type} {step : Reading α} {fault : ChunkFault}
    (h : step source = (.error fault, after)) : reading source step = .error (.container fault) :=
  congrArg (fun outcome : Except ChunkFault α × Source => outcome.1.mapError ListingFault.container) h

/-- A step that goes on behind one that is known to succeed. -/
theorem reading_bind_of_eq {α β : Type} {step : Reading α} {next : α → Reading β} {value : α}
    (h : step source = (.ok value, after)) :
    reading source (step >>= next) = reading after (next value) :=
  congrArg (fun outcome : Except ChunkFault β × Source => outcome.1.mapError ListingFault.container)
    (run_bind_of_eq h)

/-- A step behind one that is known to fail is not taken. -/
theorem reading_bind_of_error {α β : Type} {step : Reading α} {next : α → Reading β}
    {fault : ChunkFault} (h : step source = (.error fault, after)) :
    reading source (step >>= next) = .error (.container fault) :=
  reading_of_error (run_bind_of_error h)

/-- A header is listable when it can be read. -/
theorem isListable_header {header : FileHeader} (h : FileHeader.decode order bytes = .ok header) :
    IsListable order .header bytes := by
  rintro listing depth source after chunk rfl htag hcontent
  have hlines : listing.headerLines depth source.order bytes = .ok _ :=
    bind_eq_ok.mpr ⟨header, mapError_eq_ok.mpr h, rfl⟩
  simp +decide only [leafLines, htag, if_true]
  exact ⟨_, bind_eq_ok.mpr ⟨bytes, reading_of_eq hcontent, hlines⟩⟩

/-- A table of contents is listable when it has the entries that it counts. -/
theorem isListable_contents {count : UInt32} {entries : List ContentsEntry}
    (hcount : entries.length = count.toNat) :
    IsListable order .contents (contentsBytes order count entries) := by
  rintro listing depth source after chunk rfl htag hcontent
  obtain ⟨hdata, hlength, -⟩ := Reading.rest_of_content hcontent
  have hlong : contentsLength count ≤ chunk.contentLength := by
    rw [← hlength, length_contentsBytes, hcount]
    exact Nat.le_refl _
  have hentries := Reading.contents_of_data hcount hlong hdata
  simp +decide only [leafLines, htag, if_true, if_false]
  exact ⟨_, bind_eq_ok.mpr ⟨entries, reading_of_eq hentries, rfl⟩⟩

/-- The fixed fields of a media list are listable whatever they are. -/
theorem isListable_info : IsListable order .info bytes := by
  rintro listing depth source after chunk rfl htag hcontent
  simp +decide only [leafLines, htag, if_true, if_false]
  exact ⟨_, bind_eq_ok.mpr ⟨bytes, reading_of_eq hcontent, rfl⟩⟩

/-- The lines of a reference that has as much data as it says, also when more bytes follow. -/
theorem exists_referenceLines (listing : Listing) (depth : Nat) (order : ByteOrder)
    {reference : MediaReference} (others : Bytes) (hlength : reference.data.length < 2 ^ 32) :
    ∃ lines, listing.referenceLines depth order
      (MediaList.referenceBody order reference ++ others) = .ok lines := by
  generalize hbytes : MediaList.referenceBody order reference ++ others = bytes
  -- The three fields of fixed width come one behind another, and then the data.
  have hbody : bytes = order.encode reference.flags ++ reference.kind.bytes ++
      order.encode (UInt32.ofNat reference.data.length) ++ (reference.data ++ others) := by
    simp only [← hbytes, MediaList.referenceBody, List.append_assoc]
  have hflags : order.word? bytes 0 = some reference.flags := by
    simp only [hbody, List.append_assoc, ByteOrder.word?_encode]
  have hkind : Tag.ofBytes? (bytes.drop 4) = some reference.kind := by
    rw [hbody, List.append_assoc, List.append_assoc, List.drop_left' (ByteOrder.length_encode ..)]
    rfl
  have hword : order.word? bytes 8 = some (UInt32.ofNat reference.data.length) := by
    rw [hbody]
    refine order.word?_append _ _ _ ?_
    rw [List.length_append, ByteOrder.length_encode, Tag.length_bytes]
  have hdata : bytes.drop MediaList.referenceLength = reference.data ++ others := by
    rw [hbody]
    refine List.drop_left' ?_
    rw [List.length_append, List.length_append, ByteOrder.length_encode, Tag.length_bytes,
      ByteOrder.length_encode]
    rfl
  have hsize : (UInt32.ofNat reference.data.length).toNat ≤ (reference.data ++ others).length := by
    rw [UInt32.toNat_ofNat_of_lt' hlength, List.length_append]
    exact Nat.le_add_right ..
  simp only [referenceLines, hflags, hkind, hword, hdata, if_pos hsize]
  exact ⟨_, rfl⟩

/-- A reference is listable when it has as much data as it says, also when more bytes follow. -/
theorem isListable_reference {reference : MediaReference} (others : Bytes)
    (hlength : reference.data.length < 2 ^ 32) :
    IsListable order .reference (MediaList.referenceBody order reference ++ others) := by
  rintro listing depth source after chunk rfl htag hcontent
  obtain ⟨lines, hlines⟩ := listing.exists_referenceLines depth source.order others hlength
  simp +decide only [leafLines, htag, if_true, if_false]
  exact ⟨lines, bind_eq_ok.mpr ⟨_, reading_of_eq hcontent, hlines⟩⟩

/-- The payload of a group or scene is listable when it and its stream can be read. -/
theorem isListable_entity {tag : Tag} {payload : EntityPayload} {instructions : List Instruction}
    (hkind : tag = .group ∨ tag = .scene) (h : EntityPayload.decode order bytes = .ok payload)
    (hstream : payload.instructions order = .ok instructions) : IsListable order tag bytes := by
  rintro listing depth source after chunk rfl rfl hcontent
  have hlines : listing.entityLines depth chunk.tag source.order bytes = .ok _ :=
    bind_eq_ok.mpr ⟨payload, mapError_eq_ok.mpr h,
      bind_eq_ok.mpr ⟨instructions, mapError_eq_ok.mpr hstream, rfl⟩⟩
  have hleaf : listing.leafLines depth source chunk = (do
      listing.entityLines depth chunk.tag source.order (← reading source (.content chunk))) := by
    rcases hkind with htag | htag <;> simp +decide only [leafLines, htag, if_true, if_false]
  rw [hleaf]
  exact ⟨_, bind_eq_ok.mpr ⟨bytes, reading_of_eq hcontent, hlines⟩⟩

/-- The payload of a set is listable when it and its stream can be read. -/
theorem isListable_set {payload : SetPayload} {instructions : List Instruction}
    (h : SetPayload.decode order bytes = .ok payload)
    (hstream : payload.instructions order = .ok instructions) : IsListable order .set bytes := by
  rintro listing depth source after chunk rfl htag hcontent
  have hlines : listing.setLines depth source.order bytes = .ok _ :=
    bind_eq_ok.mpr ⟨payload, mapError_eq_ok.mpr h,
      bind_eq_ok.mpr ⟨instructions, mapError_eq_ok.mpr hstream, rfl⟩⟩
  simp +decide only [leafLines, htag, if_true, if_false]
  exact ⟨_, bind_eq_ok.mpr ⟨bytes, reading_of_eq hcontent, hlines⟩⟩

/-- A form is listed when it can be read as trees whose leaves are listable. -/
theorem exists_formLines {form : Chunk} {found : List FoundTree}
    (h : Reading.treesFrom form { source with position := form.content } = (.ok found, after))
    (hleaves : ∀ leaf ∈ FoundTree.leavesAll found, IsListable source.order leaf.1.tag leaf.2)
    (listing : Listing) : ∃ lines, listing.formLines source form = .ok lines := by
  have hwalk : form.walk 1 source = (FoundTree.visitsAll 1 found, none) :=
    Reading.walkFrom_of_treesFrom found 1 h
  obtain ⟨lines, hlines⟩ : ∃ lines,
      (FoundTree.visitsAll 1 found).mapM (listing.visitLines source) = .ok lines := by
    refine exists_mapM_eq_ok fun visit hvisit => ?_
    unfold visitLines
    by_cases hform : visit.chunk.tag.isForm = true
    · rw [if_pos hform]
      exact ⟨_, rfl⟩
    · obtain ⟨bytes, last, hleaf, hcontent⟩ :=
        Reading.leaf_of_visit found h hvisit (Bool.eq_false_iff.mpr hform)
      obtain ⟨inside, hinside⟩ :=
        hleaves _ hleaf listing (visit.depth + 1) source last visit.chunk rfl rfl hcontent
      rw [if_neg hform]
      exact ⟨_, bind_eq_ok.mpr ⟨inside, hinside, rfl⟩⟩
  unfold formLines
  rw [hwalk]
  exact ⟨_, bind_eq_ok.mpr ⟨lines, hlines, rfl⟩⟩

/-- A file that begins as a root form is listed by the lines of that form. -/
theorem file_of_openRoot {data : Bytes} {root : Chunk} {opened : Source}
    (htag : Tag.ofBytes? data = some .form)
    (h : Reading.openRoot (.start order data) = (.ok root, opened)) :
    listing.file order data = (listing.formLines opened root).map ofLines := by
  have hopened : (Reading.openRoot.run.run (.start order data)).2 = opened := congrArg Prod.snd h
  simp only [file, htag, Option.getD_some, if_true, pure_bind]
  rw [reading_of_eq h, hopened]
  rfl

end StageArchive.Listing
