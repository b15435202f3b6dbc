import StageArchive.Proofs.Entity.Guarded
import StageArchive.Proofs.Listing
/-!
# Listing what is no form by places

The content of a chunk that is no form is listed from parts that are taken by their places in the
chunk and in the content, and the length of the content is formed as a difference. `leafLines_eq` says
that every part is there and that the difference is one, whatever the chunk and the content declare.
-/

namespace StageArchive

/-- Fewer bytes than a word ends in hold no such word. -/
theorem ByteOrder.word?_eq_none {order : ByteOrder} {bytes : Bytes} {offset : Nat}
    (h : bytes.length < offset + 4) : order.word? bytes offset = none := by
  cases hword : order.word? bytes offset with
  | none => rfl
  | some word =>
      have hlength := congrArg List.length (eq_encode_of_word? hword)
      rw [List.length_append, length_encode, List.length_drop] at hlength
      omega

namespace Guarded

variable {ε α : Type} {listing : Listing} {depth : Nat} {order : ByteOrder} {source : Source}
  {chunk : Chunk} {bytes : Bytes} {place : Nat}

/-- What four bytes make, the first of them at a place. -/
def four (bytes : Bytes) (place : Nat) (make : UInt8 → UInt8 → UInt8 → UInt8 → α) : Guarded ε α := do
  let first ← element bytes place
  let second ← element bytes (place + 1)
  let third ← element bytes (place + 2)
  let fourth ← element bytes (place + 3)
  pure (make first second third fourth)

/-- Reads a header. -/
def fileHeader (order : ByteOrder) (bytes : Bytes) : Guarded ChunkFault FileHeader :=
  if bytes.length < 8 then throw (.malformed .header .shortHeader)
  else do
    let version ← four bytes 0 order.decode
    let timestamp ← four bytes 4 order.decode
    pure ⟨version, timestamp⟩

/-- Reads the whole content of a chunk. -/
def content (source : Source) (chunk : Chunk) : Guarded ListingFault Bytes := do
  let length ← difference chunk.finish chunk.content
  settled (Listing.reading source do
    Reading.seek chunk.content
    Reading.bytes length)

/-- Reads the number of entries of a table of contents. -/
def entryCount (chunk : Chunk) : Reading UInt32 := do
  Reading.seek chunk.content
  Reading.word

/-- Reads a table of contents. -/
def contents (source : Source) (chunk : Chunk) : Guarded ListingFault (List ContentsEntry) :=
  match entryCount chunk source with
  | (.error fault, _) => throw (.container fault)
  | (.ok count, after) => do
    let length ← difference chunk.finish chunk.content
    if length < contentsLength count then throw (.container (.malformed .contents .excessEntries))
    else settled (Listing.reading after (Reading.entries count.toNat))

/-- The header of a container. -/
def headerLines (listing : Listing) (depth : Nat) (order : ByteOrder) (bytes : Bytes) :
    Guarded ListingFault (List String) := do
  let header ← reword .container (fileHeader order bytes)
  let expected := FileHeader.currentVersion
  let note := if header.isCurrent then "" else listing.remark s!"unsupported, expected {expected}"
  pure [Listing.indent depth ++ s!"version={header.version} timestamp={header.timestamp}" ++ note]

/-- A reference of a media list. -/
def referenceLines (listing : Listing) (depth : Nat) (order : ByteOrder) (bytes : Bytes) :
    Guarded ListingFault (List String) :=
  match order.word? bytes 0, order.word? bytes 8 with
  | some flags, some size => do
    let kind ← four bytes 4 Tag.mk
    let finish := MediaList.referenceLength + size.toNat
    if finish ≤ bytes.length then
      let data ← slice bytes MediaList.referenceLength finish
      let shown := listing.referenceText data
      pure [Listing.indent depth ++ s!"flags={flags} kind={kind.label} {shown}"]
    else throw (.container (.malformed .reference .shortReference))
  | _, _ => throw (.container (.malformed .reference .shortReference))

/-- The payload of a group or scene. -/
def entityLines (listing : Listing) (depth : Nat) (kind : Tag) (order : ByteOrder)
    (bytes : Bytes) : Guarded ListingFault (List String) := do
  let payload ← reword .stream (entityPayload order bytes)
  let instructions ← reword .stream (decodeStream order payload.stream)
  let space := if kind = .scene then Namespace.sceneClass else .groupClass
  let header := payload.header
  let first := Listing.indent depth ++ s!"class={header.classIndex} count={header.count}" ++
    listing.symbolRemark space header.classIndex
  let names := payload.names.zipIdx.map fun (name, number) =>
    Listing.indent depth ++ s!"${number} = " ++ listing.palette.name (Text.quote name)
  pure (first :: instructions.map (listing.instructionLine depth payload.names) ++ names)

/-- The instructions of a set, none of which may refer to media. -/
def setInstructions (order : ByteOrder) (stream : Bytes) :
    Guarded StreamFault (List Instruction) := do
  let instructions ← decodeStream order stream
  match instructions.find? (·.opcode = .copyMediaRef) with
  | none => pure instructions
  | some instruction => throw (.assetInSet instruction.offset)

/-- The payload of a set. -/
def setLines (listing : Listing) (depth : Nat) (order : ByteOrder) (bytes : Bytes) :
    Guarded ListingFault (List String) := do
  let payload ← reword .stream (setPayload order bytes)
  let instructions ← reword .stream (setInstructions order payload.stream)
  let first := Listing.indent depth ++ s!"class={payload.classIndex}" ++
    listing.symbolRemark .setClass payload.classIndex
  pure (first :: instructions.map (listing.instructionLine depth []))

/-- The content of a chunk that is not a form. -/
def leafLines (listing : Listing) (depth : Nat) (source : Source) (chunk : Chunk) :
    Guarded ListingFault (List String) := do
  let order := source.order
  if chunk.tag = .header then
    headerLines listing depth order (← content source chunk)
  else if chunk.tag = .contents then
    pure (Listing.contentsLines depth (← contents source chunk))
  else if chunk.tag = .info then
    pure [listing.infoLine depth order (← content source chunk)]
  else if chunk.tag = .reference then
    referenceLines listing depth order (← content source chunk)
  else if chunk.tag = .group || chunk.tag = .scene then
    entityLines listing depth chunk.tag order (← content source chunk)
  else if chunk.tag = .set then
    setLines listing depth order (← content source chunk)
  else pure []

/-- Four bytes that are there are taken. -/
theorem four_eq {make : UInt8 → UInt8 → UInt8 → UInt8 → α} {first second third fourth : UInt8}
    {rest : Bytes} (h : bytes.drop place = first :: second :: third :: fourth :: rest) :
    (four bytes place make : Guarded ε α) = settled (.ok (make first second third fourth)) := by
  have hitem (next : Nat) : bytes[place + next]? = (first :: second :: third :: fourth :: rest)[next]? := by
    rw [← h, List.getElem?_drop]
  have hfirst : bytes[place]? = some first := hitem 0
  rw [four, element_eq hfirst, settled_ok_bind, element_eq (hitem 1), settled_ok_bind,
    element_eq (hitem 2), settled_ok_bind, element_eq (hitem 3), settled_ok_bind]
  rfl

/-- Four bytes are there when they end in time. -/
theorem exists_drop_eq_four (h : place + 4 ≤ bytes.length) :
    ∃ first second third fourth rest,
      bytes.drop place = first :: second :: third :: fourth :: rest := by
  have hlength : ((bytes.drop place).take 4).length = 4 := by
    rw [List.length_take, List.length_drop]
    omega
  obtain ⟨first, second, third, fourth, hfour⟩ := Reading.exists_four hlength
  refine ⟨first, second, third, fourth, (bytes.drop place).drop 4, ?_⟩
  have hsplit := (List.take_append_drop 4 (bytes.drop place)).symm
  rwa [hfour] at hsplit

/-- A word that ends in time is taken by its four bytes. -/
theorem exists_word (ε : Type) (order : ByteOrder) (h : place + 4 ≤ bytes.length) :
    ∃ word, order.word? bytes place = some word ∧
      (four bytes place order.decode : Guarded ε UInt32) = settled (.ok word) := by
  obtain ⟨first, second, third, fourth, rest, hdrop⟩ := exists_drop_eq_four h
  exact ⟨order.decode first second third fourth, by rw [ByteOrder.word?, hdrop], four_eq hdrop⟩

/-- A tag that ends in time is taken by its four bytes. -/
theorem exists_tag (ε : Type) (h : place + 4 ≤ bytes.length) :
    ∃ tag, Tag.ofBytes? (bytes.drop place) = some tag ∧
      (four bytes place Tag.mk : Guarded ε Tag) = settled (.ok tag) := by
  obtain ⟨first, second, third, fourth, rest, hdrop⟩ := exists_drop_eq_four h
  exact ⟨⟨first, second, third, fourth⟩, by rw [hdrop]; rfl, four_eq hdrop⟩

/-- A header is read by places as it is decoded, and never outside of its bytes. -/
theorem fileHeader_eq (order : ByteOrder) (bytes : Bytes) :
    fileHeader order bytes = settled (FileHeader.decode order bytes) := by
  unfold fileHeader FileHeader.decode
  by_cases hshort : bytes.length < 4 + 4
  · rw [if_pos hshort, ByteOrder.word?_eq_none hshort]
    cases order.word? bytes 0 <;> rfl
  · obtain ⟨version, hversion, hfirst⟩ := @exists_word bytes 0 ChunkFault order (by omega)
    obtain ⟨timestamp, htimestamp, hsecond⟩ := @exists_word bytes 4 ChunkFault order (by omega)
    rw [if_neg hshort, hfirst, settled_ok_bind, hsecond, settled_ok_bind, hversion, htimestamp]
    rfl

/-- The length of the content of a chunk that is no form is a difference. -/
theorem content_le_finish (h : chunk.subtype = none) : chunk.content ≤ chunk.finish := by
  simp only [Chunk.content, Chunk.finish, h]
  exact Nat.le_add_right ..

/-- The content of a chunk that is no form has a length. -/
theorem content_eq (source : Source) (h : chunk.subtype = none) :
    content source chunk = settled (Listing.reading source (.content chunk)) := by
  rw [content, difference_eq (content_le_finish h)]
  rfl

/-- A table of contents is read by the length of its content, which is a difference. -/
theorem contents_eq (source : Source) (h : chunk.subtype = none) :
    contents source chunk = settled (Listing.reading source (.contents chunk)) := by
  have hcontents : Reading.contents chunk = (entryCount chunk >>= fun count =>
      if chunk.contentLength < contentsLength count then
        throw (.malformed .contents .excessEntries)
      else Reading.entries count.toNat) :=
    (bind_assoc ..).symm
  rw [contents, hcontents]
  rcases hcount : entryCount chunk source with ⟨fault | count, after⟩
  · rw [Listing.reading_bind_of_error hcount]
    rfl
  · rw [Listing.reading_bind_of_eq hcount]
    dsimp only
    rw [difference_eq (content_le_finish h), settled_ok_bind]
    show (if chunk.contentLength < _ then _ else _) = _
    split <;> rfl

/-- A header is listed without reaching outside of its bytes. -/
theorem headerLines_eq (listing : Listing) (depth : Nat) (order : ByteOrder) (bytes : Bytes) :
    headerLines listing depth order bytes = settled (listing.headerLines depth order bytes) := by
  rw [headerLines, fileHeader_eq, reword_settled]
  exact settled_bind fun _ _ => rfl

/-- A reference is listed without reaching outside of its bytes. -/
theorem referenceLines_eq (listing : Listing) (depth : Nat) (order : ByteOrder) (bytes : Bytes) :
    referenceLines listing depth order bytes =
      settled (listing.referenceLines depth order bytes) := by
  unfold referenceLines Listing.referenceLines
  by_cases hshort : bytes.length < 8 + 4
  · rw [ByteOrder.word?_eq_none hshort]
    cases order.word? bytes 0 <;> cases Tag.ofBytes? (bytes.drop 4) <;> rfl
  · obtain ⟨flags, hflags, -⟩ := @exists_word bytes 0 ListingFault order (by omega)
    obtain ⟨kind, hkind, hfour⟩ := @exists_tag bytes 4 ListingFault (by omega)
    obtain ⟨size, hsize, -⟩ := @exists_word bytes 8 ListingFault order (by omega)
    have hfits : size.toNat ≤ (bytes.drop MediaList.referenceLength).length ↔
        MediaList.referenceLength + size.toNat ≤ bytes.length := by
      rw [List.length_drop, MediaList.referenceLength]
      omega
    rw [hflags, hkind, hsize, hfour]
    dsimp only [settled_ok_bind]
    by_cases hdata : MediaList.referenceLength + size.toNat ≤ bytes.length
    · rw [if_pos hdata, if_pos (hfits.mpr hdata), slice_eq (Nat.le_add_right ..) hdata,
        settled_ok_bind, Nat.add_sub_cancel_left]
      rfl
    · rw [if_neg hdata, if_neg (mt hfits.mp hdata)]
      rfl

/-- The payload of a group or scene is listed without reaching outside of it. -/
theorem entityLines_eq (listing : Listing) (depth : Nat) (kind : Tag) (order : ByteOrder)
    (bytes : Bytes) : entityLines listing depth kind order bytes =
      settled (listing.entityLines depth kind order bytes) := by
  rw [entityLines, entityPayload_eq, reword_settled]
  refine settled_bind fun payload _ => ?_
  rw [decodeStream_eq, reword_settled]
  exact settled_bind fun _ _ => rfl

/-- The instructions of a set are read without reaching outside of the stream. -/
theorem setInstructions_eq (order : ByteOrder) (payload : SetPayload) :
    setInstructions order payload.stream = settled (payload.instructions order) := by
  rw [setInstructions, decodeStream_eq]
  refine settled_bind fun instructions _ => ?_
  cases instructions.find? (·.opcode = .copyMediaRef) <;> rfl

/-- The payload of a set is listed without reaching outside of it. -/
theorem setLines_eq (listing : Listing) (depth : Nat) (order : ByteOrder) (bytes : Bytes) :
    setLines listing depth order bytes = settled (listing.setLines depth order bytes) := by
  rw [setLines, setPayload_eq, reword_settled]
  refine settled_bind fun payload _ => ?_
  rw [setInstructions_eq, reword_settled]
  exact settled_bind fun _ _ => rfl

/-- What is no form is listed without reaching outside of its chunk and its content. -/
theorem leafLines_eq (listing : Listing) (depth : Nat) (source : Source) (h : chunk.subtype = none) :
    leafLines listing depth source chunk = settled (listing.leafLines depth source chunk) := by
  have hcontent {lines : Bytes → Guarded ListingFault (List String)} {listed : Bytes → Listing.Lines}
      (hlines : ∀ bytes, lines bytes = settled (listed bytes)) :
      (content source chunk >>= lines) =
        settled (Listing.reading source (.content chunk) >>= listed) := by
    rw [content_eq source h]
    exact settled_bind fun bytes _ => hlines bytes
  unfold leafLines Listing.leafLines
  dsimp only
  split
  · exact hcontent (headerLines_eq listing depth source.order)
  split
  · rw [contents_eq source h]
    exact settled_bind fun _ _ => rfl
  split
  · exact hcontent fun _ => rfl
  split
  · exact hcontent (referenceLines_eq listing depth source.order)
  split
  · exact hcontent (entityLines_eq listing depth chunk.tag source.order)
  split
  · exact hcontent (setLines_eq listing depth source.order)
  · rfl

end Guarded

end StageArchive
