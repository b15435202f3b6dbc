import StageArchive.Proofs.Chunk.Source
import StageArchive.Proofs.Container.Image
/-!
# Reading a container back

The file of a container is the head of its root form, the header, the table of contents and the
chunks, with a zero byte at the end where the length would be odd. A reader enters the root form,
meets these chunks one after another, and finds in the table what was entered there.
-/

namespace StageArchive.Assembler

/-- The root form of a container. -/
def imageRoot (order : ByteOrder) (timestamp : UInt32) (dispositions : List Disposition) : Chunk :=
  ⟨.form, some (.ofOrder order), 0,
    UInt32.ofNat (padded (imageBody order timestamp dispositions)).length⟩

/-- The body of the table of contents of a container. -/
def imageContents (order : ByteOrder) (dispositions : List Disposition) : Bytes :=
  contentsBytes order (UInt32.ofNat dispositions.length)
    ((imageOffsets order dispositions).map .at)

/-- The header of a container as a chunk. -/
def headerChunk (order : ByteOrder) (timestamp : UInt32) : Chunk :=
  ⟨.header, none, 12,
    UInt32.ofNat (padded ((FileHeader.ofTimestamp timestamp).encode order)).length⟩

/-- The table of contents of a container as a chunk. -/
def contentsChunk (order : ByteOrder) (dispositions : List Disposition) : Chunk :=
  ⟨.contents, none, 28, UInt32.ofNat (padded (imageContents order dispositions)).length⟩

/-- A container whose root form has been entered. -/
def imageSource (order : ByteOrder) (timestamp : UInt32) (dispositions : List Disposition) :
    Source :=
  ⟨image order timestamp dispositions, 12, order⟩

/-- What lies behind the table of contents. -/
def imageRest (order : ByteOrder) (timestamp : UInt32) (dispositions : List Disposition) : Bytes :=
  dispositions.flatMap (·.bytes order) ++ padding (imageBody order timestamp dispositions).length

/-- A header has an even length that fits in a word. -/
theorem length_padded_header (order : ByteOrder) (timestamp : UInt32) :
    (padded ((FileHeader.ofTimestamp timestamp).encode order)).length = 8 := by
  rw [length_padded, length_encodeHeader]

/-- The header of a container has sixteen bytes. -/
theorem length_chunkBytes_header (order : ByteOrder) (timestamp : UInt32) :
    (chunkBytes order .header ((FileHeader.ofTimestamp timestamp).encode order)).length = 16 := by
  rw [length_chunkBytes, length_padded_header]

namespace ImageFits

variable {order : ByteOrder} {timestamp : UInt32} {dispositions : List Disposition}

/-- The table of contents has the length that was reserved for it. -/
theorem length_contents (h : ImageFits order timestamp dispositions) :
    (imageContents order dispositions).length =
      contentsLength (UInt32.ofNat dispositions.length) := by
  rw [imageContents, length_contentsBytes, List.length_map, imageOffsets,
    Disposition.length_offsetsFrom, contentsLength, UInt32.toNat_ofNat_of_lt' h.count]

/-- The table of contents needs no padding. -/
theorem padded_contents (h : ImageFits order timestamp dispositions) :
    padded (imageContents order dispositions) = imageContents order dispositions := by
  refine padded_of_even ?_
  rw [h.length_contents, contentsLength]
  omega

/-- The table of contents has eight bytes for each entry behind twelve. -/
theorem length_chunkBytes_contents (h : ImageFits order timestamp dispositions) :
    (chunkBytes order .contents (imageContents order dispositions)).length =
      12 + dispositions.length * 8 := by
  rw [length_chunkBytes, h.padded_contents, h.length_contents, contentsLength,
    UInt32.toNat_ofNat_of_lt' h.count]
  omega

/-- The size of the table of contents fits in a word. -/
theorem padded_contents_lt (h : ImageFits order timestamp dispositions) :
    (padded (imageContents order dispositions)).length < 2 ^ 32 := by
  rw [h.padded_contents, h.length_contents]
  exact h.contents

/-- A container that fits is its parts, one after another. -/
theorem image_eq (h : ImageFits order timestamp dispositions) :
    image order timestamp dispositions =
      (imageRoot order timestamp dispositions).head order ++
        (chunkBytes order .header ((FileHeader.ofTimestamp timestamp).encode order) ++
          (chunkBytes order .contents (imageContents order dispositions) ++
            imageRest order timestamp dispositions)) := by
  have hhead : (imageRoot order timestamp dispositions).head order = Tag.form.bytes ++
      order.encode (UInt32.ofNat (padded (imageBody order timestamp dispositions)).length) ++
        (Tag.ofOrder order).bytes := rfl
  have hcontents : chunkBytes order .contents (imageContents order dispositions) =
      Tag.contents.bytes ++
        order.encode (UInt32.ofNat (contentsLength (UInt32.ofNat dispositions.length))) ++
          imageContents order dispositions := by
    rw [chunkBytes, h.padded_contents, h.length_contents]
  rw [hhead, hcontents, image, chunkBytes, padded, imageRest]
  generalize padding (imageBody order timestamp dispositions).length = pad
  simp only [imageBody, inside, opening, imageContents, List.append_assoc]

/-- The header and the chunks behind it begin at an offset that depends on nothing. -/
theorem drop_root (h : ImageFits order timestamp dispositions) :
    (image order timestamp dispositions).drop 12 =
      chunkBytes order .header ((FileHeader.ofTimestamp timestamp).encode order) ++
        (chunkBytes order .contents (imageContents order dispositions) ++
          imageRest order timestamp dispositions) := by
  have hhead := (imageRoot order timestamp dispositions).length_head order
  have hlength : ((imageRoot order timestamp dispositions).head order).length = 12 :=
    (Nat.zero_add _).symm.trans hhead
  rw [h.image_eq, List.drop_left' hlength]

/-- So does the table of contents. -/
theorem drop_header (h : ImageFits order timestamp dispositions) :
    (image order timestamp dispositions).drop 28 =
      chunkBytes order .contents (imageContents order dispositions) ++
        imageRest order timestamp dispositions := by
  have hlength := length_chunkBytes_header order timestamp
  have hstart : 28 = 12 + 16 := rfl
  rw [hstart, ← List.drop_drop, h.drop_root, List.drop_left' hlength]

/-- The chunks begin behind the table of contents. -/
theorem drop_contents (h : ImageFits order timestamp dispositions) :
    (image order timestamp dispositions).drop (contentStart dispositions.length) =
      imageRest order timestamp dispositions := by
  have hlength := h.length_chunkBytes_contents
  have hstart : contentStart dispositions.length = 28 + (12 + dispositions.length * 8) := by
    rw [contentStart]
    omega
  rw [hstart, ← List.drop_drop, h.drop_header, List.drop_left' hlength]

/-- The root form spans the file. -/
theorem finish_root (h : ImageFits order timestamp dispositions) :
    (imageRoot order timestamp dispositions).finish =
      (image order timestamp dispositions).length := by
  have hsize := h.toNat_size
  have hfinish : (imageRoot order timestamp dispositions).finish =
      8 + (UInt32.ofNat (padded (imageBody order timestamp dispositions)).length).toNat := rfl
  omega

/-- The root form is entered whatever byte order is assumed. -/
theorem openRoot_image (h : ImageFits order timestamp dispositions) (start : ByteOrder) :
    Reading.openRoot (.start start (image order timestamp dispositions)) =
      (.ok (imageRoot order timestamp dispositions),
        imageSource order timestamp dispositions) :=
  Reading.openRoot_of_data h.image_eq start

/-- The entries of the table of contents are those that were entered. -/
theorem contents_image (h : ImageFits order timestamp dispositions) :
    Reading.contents (contentsChunk order dispositions)
        (imageSource order timestamp dispositions) =
      (.ok ((imageOffsets order dispositions).map .at),
        { imageSource order timestamp dispositions with
          position := 36 + 4 + ((imageOffsets order dispositions).map ContentsEntry.at).length * 8 }) := by
  have hcount : ((imageOffsets order dispositions).map ContentsEntry.at).length =
      (UInt32.ofNat dispositions.length).toNat := by
    rw [List.length_map, imageOffsets, Disposition.length_offsetsFrom,
      UInt32.toNat_ofNat_of_lt' h.count]
  have hlength : (contentsChunk order dispositions).contentLength =
      contentsLength (UInt32.ofNat dispositions.length) := by
    have hfinish : (contentsChunk order dispositions).finish =
        36 + (padded (imageContents order dispositions)).length :=
      congrArg (36 + ·) (UInt32.toNat_ofNat_of_lt' h.padded_contents_lt)
    have hcontent : (contentsChunk order dispositions).content = 36 := rfl
    rw [Chunk.contentLength, hfinish, hcontent, Nat.add_sub_cancel_left, h.padded_contents,
      h.length_contents]
  have hdata : (imageSource order timestamp dispositions).data.drop
      (contentsChunk order dispositions).content =
        imageContents order dispositions ++ imageRest order timestamp dispositions := by
    have hdrop := Reading.drop_of_chunkBytes h.drop_header
    rwa [h.padded_contents] at hdrop
  exact Reading.contents_of_data hcount (Nat.le_of_eq hlength.symm) hdata

/-- The header, the table of contents and the chunks that were written follow one another. -/
theorem follow_image (h : ImageFits order timestamp dispositions) {chunks : List Chunk}
    (hfollow : Chunk.Follow order (contentStart dispositions.length) chunks
      (dispositions.flatMap (·.bytes order))) :
    Chunk.Follow order 12
      (headerChunk order timestamp :: contentsChunk order dispositions :: chunks)
      (chunkBytes order .header ((FileHeader.ofTimestamp timestamp).encode order) ++
        (chunkBytes order .contents (imageContents order dispositions) ++
          dispositions.flatMap (·.bytes order))) := by
  have hcontents : Chunk.Follow order 28 (contentsChunk order dispositions :: chunks)
      (chunkBytes order .contents (imageContents order dispositions) ++
        dispositions.flatMap (·.bytes order)) := by
    refine Chunk.Follow.cons_chunkBytes rfl h.padded_contents_lt ?_
    rwa [h.length_chunkBytes_contents, ← Nat.add_assoc]
  refine Chunk.Follow.cons_chunkBytes rfl ?_ ?_
  · rw [length_padded_header]
    decide
  · rwa [length_chunkBytes_header]

/-- The chunks inside the root form are the header, the table of contents and the chunks that were
written. -/
theorem childrenFrom_image (h : ImageFits order timestamp dispositions) {chunks : List Chunk}
    (hfollow : Chunk.Follow order (contentStart dispositions.length) chunks
      (dispositions.flatMap (·.bytes order))) :
    ∃ last, Reading.childrenFrom (imageRoot order timestamp dispositions)
        (imageSource order timestamp dispositions) =
          (.ok (headerChunk order timestamp :: contentsChunk order dispositions :: chunks), last) ∧
      last.position ≤ (image order timestamp dispositions).length ∧
      (image order timestamp dispositions).length ≤ last.position + 1 := by
  have hpad := length_padding_le (imageBody order timestamp dispositions).length
  have hrest := h.drop_root
  rw [imageRest, ← List.append_assoc (chunkBytes order .contents _), ← List.append_assoc] at hrest
  -- Behind the chunks there is at most the padding of the root form, in which no header fits.
  have hlength := congrArg List.length hrest
  rw [List.length_drop, List.length_append] at hlength
  have hlong : 16 ≤ (chunkBytes order .header ((FileHeader.ofTimestamp timestamp).encode order) ++
      (chunkBytes order .contents (imageContents order dispositions) ++
        dispositions.flatMap (·.bytes order))).length := by
    rw [List.length_append, length_chunkBytes_header]
    omega
  refine ⟨_, @Reading.childrenFrom_of_follow order 12 _ _ _ (h.follow_image hfollow)
    (imageSource order timestamp dispositions) (imageRoot order timestamp dispositions) rfl rfl
    hrest ?_ (Nat.lt_of_le_of_lt hpad (by decide)), ?_, ?_⟩
  · rw [h.finish_root]
    omega
  · show 12 + _ ≤ _
    omega
  · show _ ≤ 12 + _ + 1
    omega

end ImageFits

end StageArchive.Assembler
