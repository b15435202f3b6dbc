import StageArchive.Proofs.Container.Sealed
import StageArchive.Proofs.Container.SetReading
import StageArchive.Proofs.Listing
/-!
# Every container can be listed

The chunks of a container are trees: the header, the table of contents and a tree for each entry that
was written. A linked entity can be read again behind padding, a medium was a tree of listable leaves
before it came into the container, and so was a set unless its file ended in a byte of padding already.
`finalize_listed` concludes that the file of a finished container is listed, whatever byte order is
assumed for it.
-/

namespace StageArchive

namespace MediaList

/-- A media list as a tree of chunks. -/
def tree (order : ByteOrder) (media : MediaList) : ChunkTree :=
  .form ⟨.list, rfl⟩ ⟨.mediaList, rfl⟩ (.leaf ⟨.info, rfl⟩ (media.infoBody order) ::
    media.references.map fun reference => .leaf ⟨.reference, rfl⟩ (referenceBody order reference))

/-- The chunks of references are leaves one after another. -/
theorem bytesAll_references (order : ByteOrder) (references : List MediaReference) :
    ChunkTree.bytesAll order (references.map fun reference =>
      .leaf ⟨.reference, rfl⟩ (referenceBody order reference)) = referenceChunks order references := by
  induction references with
  | nil => rfl
  | cons reference references ih => exact congrArg (_ ++ ·) ih

/-- The bytes of a media list are those of its tree. -/
theorem bytes_tree (order : ByteOrder) (media : MediaList) :
    (media.tree order).bytes order = media.bytes order := by
  rw [tree, ChunkTree.bytes, ChunkTree.bytesAll, bytesAll_references]
  rfl

/-- The leaves of a media list are the fixed fields and its references. -/
theorem leaves_tree (order : ByteOrder) (media : MediaList) :
    (media.tree order).leaves = (.info, padded (media.infoBody order)) ::
      media.references.map fun reference => (.reference, padded (referenceBody order reference)) := by
  refine congrArg (_ :: ·) ?_
  generalize media.references = references
  induction references with
  | nil => rfl
  | cons reference references ih => exact congrArg (_ :: ·) ih

/-- The leaves of a media list are listable when the data of its references are not too long. -/
theorem isListable_of_mem_leaves {order : ByteOrder} {media : MediaList}
    (hlengths : ∀ reference ∈ media.references, reference.data.length < 2 ^ 32) :
    ∀ leaf ∈ (media.tree order).leaves, Listing.IsListable order leaf.1 leaf.2 := by
  intro leaf hleaf
  rw [leaves_tree] at hleaf
  rcases List.mem_cons.mp hleaf with rfl | hleaf
  · exact Listing.isListable_info
  · obtain ⟨reference, hreference, rfl⟩ := List.mem_map.mp hleaf
    exact Listing.isListable_reference _ (hlengths reference hreference)

end MediaList

/-- A file of an entry as it is made: a media list that was encoded, or the file of a set whose stream
an encoder wrote. The files of groups and scenes may be any. -/
structure IsMade (order : ByteOrder) (kind : ChunkKind) (content : Bytes) : Prop where
  media : kind = .media → ∃ media : MediaList, media.encode order = .ok content
  set : kind = .set → ∃ classIndex calls encoder answers,
    (∀ call ∈ calls, EncoderCall.IsAdmitted call) ∧
      (Encoder.start order).record calls = .ok (encoder, answers) ∧
      content = SetPayload.encodeFile order classIndex encoder.finish.bytes

namespace Assembler

/-- The header of a container is listable. -/
theorem isListable_fileHeader (order : ByteOrder) (timestamp : UInt32) :
    Listing.IsListable order .header (padded ((FileHeader.ofTimestamp timestamp).encode order)) := by
  have heven : ((FileHeader.ofTimestamp timestamp).encode order).length % 2 = 0 := by
    rw [length_encodeHeader]
  have htimestamp := order.word?_append (order.encode FileHeader.currentVersion) timestamp []
    (ByteOrder.length_encode ..)
  rw [List.append_nil] at htimestamp
  have hdecode : FileHeader.decode order ((FileHeader.ofTimestamp timestamp).encode order) =
      .ok (.ofTimestamp timestamp) := by
    simp only [FileHeader.decode, FileHeader.encode, FileHeader.ofTimestamp,
      ByteOrder.word?_encode, htimestamp]
  rw [padded_of_even heven]
  exact Listing.isListable_header hdecode

/-- The table of contents of a container is listable. -/
theorem ImageFits.isListable_contents {order : ByteOrder} {timestamp : UInt32}
    {dispositions : List Disposition} (h : ImageFits order timestamp dispositions) :
    Listing.IsListable order .contents (padded (imageContents order dispositions)) := by
  rw [h.padded_contents]
  refine Listing.isListable_contents ?_
  rw [List.length_map, imageOffsets, Disposition.length_offsetsFrom,
    UInt32.toNat_ofNat_of_lt' h.count]

/-- A chunk that is no form is a tree of one leaf. -/
theorem exists_leaf {order : ByteOrder} {tag : Tag} {body : Bytes} (hform : tag.isForm = false)
    (h : Listing.IsListable order tag (padded body)) :
    ∃ tree : ChunkTree, tree.bytes order = (PreparedChunk.body tag body).bytes order ∧
      ∀ leaf ∈ tree.leaves, Listing.IsListable order leaf.1 leaf.2 := by
  refine ⟨.leaf ⟨tag, hform⟩ body, rfl, ?_⟩
  intro leaf hleaf
  obtain rfl := List.mem_singleton.mp hleaf
  exact h

/-- A linked entity is listable in its chunk. -/
theorem isListable_linked {order : ByteOrder} {assets : NameIndex} {content body : Bytes}
    {kind : ChunkKind} (hkind : kind = .group ∨ kind = .scene)
    (h : relinkEntity order assets content = .ok body) :
    Listing.IsListable order kind.tag (padded body) := by
  obtain ⟨payload, linked, -, hlinked, -, -, -, original, instructions, -, hstream, -⟩ :=
    exists_isLinkedFrom h (padding_eq body.length)
  refine Listing.isListable_entity ?_ hlinked hstream
  rcases hkind with rfl | rfl
  · exact .inl rfl
  · exact .inr rfl

/-- A set is listable in its chunk when an encoder wrote its stream, so that no padding is at the end of
its file. -/
theorem isListable_set {order : ByteOrder} {classIndex : UInt32} {stream body : Bytes}
    {original : List Instruction} (hstream : decodeStream order stream = .ok original)
    (hbare : stream = streamBytes original)
    (h : prepareSet order (SetPayload.encodeFile order classIndex stream) = .ok body) :
    Listing.IsListable order .set (padded body) := by
  have hbody : body = order.encode classIndex ++ stream := by
    rw [eq_drop_of_prepareSet h, SetPayload.encodeFile, List.append_assoc]
    exact List.drop_left' (ByteOrder.length_encode ..)
  obtain ⟨inside, -, h⟩ := bind_eq_ok.mp h
  obtain ⟨payload, hpayload, h⟩ := bind_eq_ok.mp h
  obtain ⟨instructions, hinstructions, h⟩ := bind_eq_ok.mp h
  cases h
  obtain ⟨again, hagain, -, hreread⟩ := SetPayload.reread_padded hpayload hinstructions
  have hpadding : ¬ payload.stream = streamBytes instructions ++ [0] := by
    intro heq
    rw [hbody, SetPayload.decode_append] at hpayload
    cases hpayload
    have hsame := (SetPayload.instructions_eq_ok.mp hinstructions).1
    rw [hstream] at hsame
    cases hsame
    have hlength := congrArg List.length (hbare.symm.trans heq)
    simp at hlength
  rw [if_neg fun hover => hpadding hover.2] at hreread
  exact Listing.isListable_set hagain hreread

/-- What is written for an entry is a tree with listable leaves. -/
theorem exists_tree {assembler : Assembler} {entry : ChunkEntry} {content : Bytes}
    {prepared : PreparedChunk} (hmade : IsMade assembler.config.byteOrder entry.kind content)
    (h : assembler.prepare entry content = .ok prepared) (hfits : prepared.Fits) :
    ∃ tree : ChunkTree, tree.bytes assembler.config.byteOrder =
        prepared.bytes assembler.config.byteOrder ∧
      ∀ leaf ∈ tree.leaves, Listing.IsListable assembler.config.byteOrder leaf.1 leaf.2 := by
  have hprepares := prepare_eq_ok.mp h
  generalize entry.kind = kind at hmade hprepares
  cases hprepares with
  | media hmedia =>
      obtain ⟨media, hencode⟩ := hmade.media rfl
      obtain ⟨-, hlengths, -, rfl⟩ := MediaList.eq_bytes_of_encode hencode
      exact ⟨_, MediaList.bytes_tree _ media, MediaList.isListable_of_mem_leaves hlengths⟩
  | entity hkind hbody =>
      have hform : kind.tag.isForm = false := by
        rcases hkind with rfl | rfl <;> rfl
      exact exists_leaf hform (isListable_linked hkind hbody)
  | set hbody =>
      obtain ⟨classIndex, calls, encoder, answers, hadmitted, hrecord, rfl⟩ := hmade.set rfl
      obtain ⟨original, hstream, hbare⟩ := Encoder.exists_decodeStream_of_record hadmitted hrecord
      exact exists_leaf rfl (isListable_set hstream hbare hbody)

/-- What is written for entries are trees with listable leaves. -/
theorem Disposes.exists_trees {assembler : Assembler} {look : Path → Except FileFault Bytes}
    {entries : List ChunkEntry} {dispositions : List Disposition} {start : Nat}
    (h : assembler.Disposes look entries dispositions)
    (hmade : ∀ entry ∈ entries, ∀ content, look entry.source = .ok content →
      IsMade assembler.config.byteOrder entry.kind content)
    (hfit : Disposition.FitFrom assembler.config.byteOrder start dispositions) :
    ∃ trees, ChunkTree.bytesAll assembler.config.byteOrder trees =
        dispositions.flatMap (·.bytes assembler.config.byteOrder) ∧
      ∀ leaf ∈ ChunkTree.leavesAll trees,
        Listing.IsListable assembler.config.byteOrder leaf.1 leaf.2 := by
  induction h generalizing start with
  | nil => exact ⟨[], rfl, nofun⟩
  | @cons entry content disposition entries dispositions hread hdispose hothers ih =>
      obtain ⟨trees, hbytes, hleaves⟩ :=
        ih (fun other hother => hmade other (List.mem_cons_of_mem _ hother)) hfit.2
      cases disposition with
      | skipped reason => exact ⟨trees, hbytes, hleaves⟩
      | written prepared =>
          obtain ⟨tree, htree, hinside⟩ := exists_tree
            (hmade entry (List.mem_cons_self ..) content hread) (prepare_of_dispose hdispose)
            hfit.1.2
          refine ⟨tree :: trees, ?_, ?_⟩
          · rw [ChunkTree.bytesAll, htree, hbytes]
            rfl
          · intro leaf hleaf
            rcases List.mem_append.mp hleaf with hleaf | hleaf
            · exact hinside leaf hleaf
            · exact hleaves leaf hleaf

/-- The chunks of a container as trees, with those of its entries. -/
def imageTrees (order : ByteOrder) (timestamp : UInt32) (dispositions : List Disposition)
    (trees : List ChunkTree) : List ChunkTree :=
  .leaf ⟨.header, rfl⟩ ((FileHeader.ofTimestamp timestamp).encode order) ::
    .leaf ⟨.contents, rfl⟩ (imageContents order dispositions) :: trees

/-- A container whose entries are trees is read as trees. -/
theorem ImageFits.treesFrom_image {order : ByteOrder} {timestamp : UInt32}
    {dispositions : List Disposition} (h : ImageFits order timestamp dispositions)
    {trees : List ChunkTree}
    (hbytes : ChunkTree.bytesAll order trees = dispositions.flatMap (·.bytes order)) :
    ∃ last, Reading.treesFrom (imageRoot order timestamp dispositions)
        (imageSource order timestamp dispositions) =
      (.ok (ChunkTree.placeAll 12 (imageTrees order timestamp dispositions trees)), last) := by
  have hrest : (imageSource order timestamp dispositions).rest =
      ChunkTree.bytesAll order (imageTrees order timestamp dispositions trees) ++
        padding (imageBody order timestamp dispositions).length := by
    refine h.drop_root.trans ?_
    simp only [imageRest, ← hbytes, imageTrees, ChunkTree.bytesAll, ChunkTree.bytes,
      List.append_assoc]
  -- The chunks have even lengths and so has the file, so no padding is behind them.
  have hlength : (image order timestamp dispositions).length - 12 =
      ChunkTree.lengthAll (imageTrees order timestamp dispositions trees) +
        (padding (imageBody order timestamp dispositions).length).length := by
    have hlength := congrArg List.length hrest
    rwa [Source.rest, List.length_drop, List.length_append, ChunkTree.length_bytesAll] at hlength
  have heven := ChunkTree.even_lengthAll (imageTrees order timestamp dispositions trees)
  have himage := length_image order timestamp dispositions
  have hpadded := length_padded (imageBody order timestamp dispositions)
  have hbody := length_imageBody order timestamp dispositions
  have hsize := h.size
  have hpad := length_padding_le (imageBody order timestamp dispositions).length
  refine ⟨_, Reading.treesFrom_of_rest _ ?_ ?_ hrest⟩
  · omega
  · rw [h.finish_root]
    show _ = 12 + _
    omega

/-- A container whose entries are trees with listable leaves is listed. -/
theorem ImageFits.exists_file {order : ByteOrder} {timestamp : UInt32}
    {dispositions : List Disposition} (h : ImageFits order timestamp dispositions)
    {trees : List ChunkTree}
    (hbytes : ChunkTree.bytesAll order trees = dispositions.flatMap (·.bytes order))
    (hleaves : ∀ leaf ∈ ChunkTree.leavesAll trees, Listing.IsListable order leaf.1 leaf.2)
    (listing : Listing) :
    ∃ text, ∀ start, listing.file start (image order timestamp dispositions) = .ok text := by
  have hform : Tag.ofBytes? (image order timestamp dispositions) = some .form := by
    rw [image, chunkBytes, List.append_assoc]
    rfl
  obtain ⟨last, htrees⟩ := h.treesFrom_image hbytes
  -- The image adds two leaves of its own, the file header and the contents.
  have hall : ∀ leaf ∈ ChunkTree.leavesAll (imageTrees order timestamp dispositions trees),
      Listing.IsListable order leaf.1 leaf.2 := by
    intro leaf hleaf
    rcases List.mem_cons.mp hleaf with rfl | hleaf
    · exact isListable_fileHeader order timestamp
    · rcases List.mem_cons.mp hleaf with rfl | hleaf
      · exact h.isListable_contents
      · exact hleaves leaf hleaf
  have hfound : ∀ leaf ∈ FoundTree.leavesAll
      (ChunkTree.placeAll 12 (imageTrees order timestamp dispositions trees)),
      Listing.IsListable order leaf.1.tag leaf.2 := by
    intro leaf hleaf
    refine hall (leaf.1.tag, leaf.2) ?_
    rw [← ChunkTree.leavesAll_placeAll 12]
    exact List.mem_map_of_mem hleaf
  obtain ⟨lines, hlines⟩ := @Listing.exists_formLines
    (imageSource order timestamp dispositions) last (imageRoot order timestamp dispositions) _ htrees
    hfound listing
  refine ⟨Listing.ofLines lines, fun start => ?_⟩
  rw [Listing.file_of_openRoot hform (h.openRoot_image start), hlines]
  rfl

/-- Every container of files that are made as they should be can be listed: the listing never fails,
with or without colours and whatever the symbols, and the byte order that is assumed for the file has no
part in it. -/
theorem finalize_listed {assembler : Assembler} {clock : UInt32} {output : Path}
    {report : AssemblyReport} {before after : FileSystem}
    (hmade : ∀ entry ∈ assembler.entries, ∀ content, before.read entry.source = .ok content →
      IsMade assembler.config.byteOrder entry.kind content)
    (h : (assembler.finalize clock output :
        ExceptT AssemblyFault (StateM FileSystem) AssemblyReport) before = (.ok report, after)) :
    ∃ bytes, after.read report.output = .ok bytes ∧
      ∀ listing : Listing, ∃ text, ∀ order, listing.file order bytes = .ok text := by
  obtain ⟨-, admitted, dispositions, bytes, hadmits, hdisposes, hbuilds, hplace⟩ :=
    (finalize_eq_ok fun _ _ => rfl).mp h
  obtain ⟨-, rfl⟩ := Prod.mk.inj hadmits
  obtain ⟨hfits, rfl, rfl⟩ := hbuilds
  obtain ⟨trees, hbytes, hleaves⟩ := hdisposes.exists_trees hmade hfits.chunks
  exact ⟨_, FileSystem.read_of_place (FileSystem.change_eq_ok.mp hplace),
    hfits.exists_file hbytes hleaves⟩

/-- A medium with one file, the path of which has odd length with the zero byte behind it. -/
def pathMedia : MediaList :=
  ⟨1, 2, [⟨0, .ofChars 'P' 'N' 'G' ' ', [0x61, 0x62, 0]⟩]⟩

/-- The payload of a group that refers to the medium. -/
def pathGroup : Bytes :=
  EntityPayload.encode .big ⟨3, 1⟩ [0x8a, 4, 0x8d, 0x80] ["a"]

/-- The payload of the group when it is linked. -/
def linkedGroup : Bytes :=
  EntityPayload.encode .big ⟨3, 1⟩ [0x8a, 4, 0x8d, 0x80] []

/-- The files of the medium, the group and a set. -/
def pathFiles : FileSystem :=
  ⟨[(["w"], .directory), (["w", "a.mrfl"], .file (pathMedia.bytes .big)),
    (["w", "g.grp"], .file pathGroup), (["w", "s.set"], .file bareSet)], ["w"]⟩

/-- A container with the medium, the group and the set. -/
def pathEntries : Assembler :=
  ⟨.standard, [⟨.media, ⟨"a.mrfl"⟩, "a"⟩, ⟨.group, ⟨"g.grp"⟩, "g"⟩, ⟨.set, ⟨"s.set"⟩, "s"⟩],
    .ofList ["a"]⟩

/-- What becomes of the medium, the group and the set. -/
def pathDispositions : List Disposition :=
  [.written (.whole (pathMedia.bytes .big)), .written (.body .group linkedGroup),
    .written (.body .set (bareSet.drop 4))]

/-- The medium can be written. -/
theorem encode_pathMedia : pathMedia.encode .big = .ok (pathMedia.bytes .big) := by
  decide +kernel

/-- All entries of the container are written. -/
theorem disposes_pathEntries :
    pathEntries.Disposes pathFiles.read pathEntries.entries pathDispositions := by
  have hmedia : pathEntries.prepare ⟨.media, ⟨"a.mrfl"⟩, "a"⟩ (pathMedia.bytes .big) =
      .ok (.whole (pathMedia.bytes .big)) :=
    prepare_eq_ok.mpr (.media (MediaList.decode_of_encode encode_pathMedia))
  have hgroup : pathEntries.prepare ⟨.group, ⟨"g.grp"⟩, "g"⟩ pathGroup =
      .ok (.body .group linkedGroup) := by
    have hlink : relinkEntity pathEntries.config.byteOrder pathEntries.assets pathGroup =
        .ok linkedGroup := by decide +kernel
    exact prepare_eq_ok.mpr (.entity (.inl rfl) hlink)
  have hset : pathEntries.prepare ⟨.set, ⟨"s.set"⟩, "s"⟩ bareSet =
      .ok (.body .set (bareSet.drop 4)) :=
    prepare_eq_ok.mpr (.set prepareSet_bareSet)
  exact .cons rfl (by rw [hmedia]; rfl) (.cons rfl (by rw [hgroup]; rfl)
    (.cons rfl (by rw [hset]; rfl) .nil))

/-- The files of the container are made as they should be. -/
theorem isMade_pathFiles : ∀ entry ∈ pathEntries.entries, ∀ content,
    pathFiles.read entry.source = .ok content → IsMade .big entry.kind content := by
  intro entry hentry content hcontent
  rcases List.mem_cons.mp hentry with rfl | hentry
  · cases hcontent
    exact ⟨fun _ => ⟨pathMedia, encode_pathMedia⟩, nofun⟩
  · rcases List.mem_cons.mp hentry with rfl | hentry
    · exact ⟨nofun, nofun⟩
    · obtain rfl := List.mem_singleton.mp hentry
      cases hcontent
      exact ⟨nofun, fun _ => ⟨7, [], .start .big, [], nofun, rfl, rfl⟩⟩

/-- A container with a medium, a linked group and a set whose body is padded. -/
theorem finalize_listed_path :
    ∃ report after bytes,
      (pathEntries.finalize 9 ⟨"o.ppr"⟩ :
          ExceptT AssemblyFault (StateM FileSystem) AssemblyReport) pathFiles =
        (.ok report, after) ∧
      report.skipped = [] ∧ report.size = 156 ∧ after.read report.output = .ok bytes ∧
      ∀ listing : Listing, ∃ text, ∀ order, listing.file order bytes = .ok text := by
  have hsize : (image .big 9 pathDispositions).length = 156 := by decide +kernel
  have hfits : ImageFits .big 9 pathDispositions := .of_length (by rw [hsize]; decide)
  have hbuilds : pathEntries.Builds 9 ⟨"o.ppr"⟩ pathDispositions _ _ := ⟨hfits, rfl, rfl⟩
  have hadmits : pathFiles.admitsFiles ⟨"."⟩ = .ok () := rfl
  have hplace (bytes : Bytes) : pathFiles.place ⟨"o.ppr"⟩ bytes =
      .ok (pathFiles.insert ["w", "o.ppr"] (.file bytes)) := rfl
  have h : (pathEntries.finalize 9 ⟨"o.ppr"⟩ :
      ExceptT AssemblyFault (StateM FileSystem) AssemblyReport) pathFiles = _ :=
    (finalize_eq_ok fun _ _ => rfl).mpr ⟨by decide, pathFiles, _, _, Prod.ext hadmits rfl,
      disposes_pathEntries, hbuilds, FileSystem.change_eq_ok.mpr (hplace _)⟩
  obtain ⟨bytes, hread, hlisted⟩ := finalize_listed isMade_pathFiles h
  exact ⟨_, _, bytes, h, rfl, hsize, hread, hlisted⟩

end Assembler

end StageArchive
