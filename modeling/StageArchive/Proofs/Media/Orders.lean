import StageArchive.Proofs.Media
/-!
# A media list belongs to one byte order

A media list does not say in which byte order it is written, yet a list that is not huge is never read
in the wrong one. Either the size of its form reads as another number, so that the form does not span the
file, or it reads as the same number, and then the chunk with the fixed fields seems to end far behind
the form: its size, twelve, reads as more than 2 ^ 24 in the other order.
-/

namespace StageArchive.MediaList

/-- The number of bytes of the chunk of a reference. -/
def referenceSize (reference : MediaReference) : Nat :=
  20 + (reference.data.length + reference.data.length % 2)

/-- The number of bytes of the chunks of references. -/
def referencesSize : List MediaReference → Nat
  | [] => 0
  | reference :: references => referenceSize reference + referencesSize references

/-- The number of bytes of a list: those of its form up to the references, and those of each reference. -/
def encodedLength (media : MediaList) : Nat :=
  32 + referencesSize media.references

/-- The chunk of a reference has as many bytes as its fields and its data, with the byte that makes
their number even. -/
theorem length_referenceChunk (order : ByteOrder) (reference : MediaReference) :
    (chunkBytes order .reference (referenceBody order reference)).length =
      referenceSize reference := by
  rw [length_chunkBytes, length_padded, length_referenceBody, referenceSize]
  omega

/-- The chunks of references have as many bytes as the chunk of each. -/
theorem length_referenceChunks (order : ByteOrder) (references : List MediaReference) :
    (referenceChunks order references).length = referencesSize references := by
  induction references with
  | nil => rfl
  | cons reference references ih =>
      rw [referenceChunks_cons, List.length_append, length_referenceChunk, ih, referencesSize]

/-- The chunks of references have an even number of bytes. -/
theorem even_referencesSize (references : List MediaReference) :
    referencesSize references % 2 = 0 := by
  induction references with
  | nil => rfl
  | cons reference references ih =>
      rw [referencesSize, referenceSize]
      omega

/-- What the form of a list holds needs no padding. -/
theorem length_inside (order : ByteOrder) (media : MediaList) :
    (padded (media.inside order)).length = 24 + (referenceChunks order media.references).length := by
  have hinside : (media.inside order).length =
      24 + (referenceChunks order media.references).length := by
    rw [inside, List.length_append, List.length_append, length_chunkBytes, length_padded,
      length_infoBody, Tag.length_bytes]
    omega
  have heven := even_referencesSize media.references
  rw [length_padded, hinside, length_referenceChunks]
  omega

/-- The bytes of a list are as many in either order. -/
theorem length_bytes (order : ByteOrder) (media : MediaList) :
    (media.bytes order).length = media.encodedLength := by
  rw [bytes, length_chunkBytes, length_inside, length_referenceChunks, encodedLength]
  omega

/-- A list has an even number of bytes. -/
theorem even_encodedLength (media : MediaList) : media.encodedLength % 2 = 0 := by
  have heven := even_referencesSize media.references
  rw [encodedLength]
  omega

/-- A list whose bytes are not too many fits. -/
theorem fits_of_encodedLength {media : MediaList} (order : ByteOrder)
    (h : media.encodedLength < 2 ^ 32) : media.Fits order := by
  rw [← length_bytes order, bytes, length_chunkBytes] at h
  show (padded (media.inside order)).length < 2 ^ 32
  omega

/-- The size of the fixed fields reads as a large number in the other order. -/
theorem exists_flipped_infoLength (order : ByteOrder) :
    ∃ size : UInt32, order.flip.encode size = order.encode (UInt32.ofNat infoLength) ∧
      2 ^ 24 ≤ size.toNat := by
  cases order with
  | big | little => exact ⟨0x0c000000, by decide, by decide⟩

/-- Inside a form of fewer than 2 ^ 24 bytes the chunk with the fixed fields is refused in the other
order, where it seems to end behind the form. -/
theorem read_flip_eq_error {order : ByteOrder} {media : MediaList} {list : Chunk} {data : Bytes}
    {others : Bytes} (hcontent : list.content = 12) (hroom : 20 ≤ list.finish)
    (hshort : list.finish < 2 ^ 24)
    (h : data.drop 12 = chunkBytes order .info (media.infoBody order) ++ others) :
    ∃ fault after, read list ⟨data, 12, order.flip⟩ = (.error fault, after) := by
  obtain ⟨size, hsize, hlarge⟩ := exists_flipped_infoLength order
  let info : Chunk := ⟨.info, none, 12, size⟩
  have hbody : padded (media.infoBody order) = media.infoBody order :=
    padded_of_even (by rw [length_infoBody])
  have hhead : chunkBytes order .info (media.infoBody order) =
      info.head order.flip ++ media.infoBody order := by
    rw [chunkBytes, hbody, length_infoBody, Chunk.head, hsize, List.append_nil]
    rfl
  rw [hhead, List.append_assoc] at h
  have hover : list.finish < info.finish := by
    show list.finish < 12 + 8 + size.toNat
    omega
  have hnext : Reading.next? list ⟨data, 12, order.flip⟩ = (.error _, _) :=
    Reading.next?_of_overrun (rfl : info.IsRegular) rfl hroom hover h
  have hchild : child list .info ⟨data, 12, order.flip⟩ = (.error _, _) :=
    (run_bind_of_eq (Reading.run_position _)).trans (run_bind_of_error hnext)
  have hseek : Reading.seek list.content ⟨data, 12, order.flip⟩ =
      (.ok (), ⟨data, 12, order.flip⟩) := by
    rw [hcontent]
    rfl
  exact ⟨_, _, (run_bind_of_eq hseek).trans (run_bind_of_error hchild)⟩

/-- A list of fewer than 2 ^ 24 bytes is refused in the other order. -/
theorem decode_flip_eq_error {media : MediaList} (order : ByteOrder)
    (hshort : media.encodedLength < 2 ^ 24) :
    ∃ fault, decode order.flip (media.bytes order) = .error fault := by
  obtain ⟨size, hsize⟩ := Reading.exists_encode_eq order.flip order (media.form order).size
  have hdata : media.bytes order = Chunk.head order.flip ⟨.list, some .mediaList, 0, size⟩ ++
      (chunkBytes order .info (media.infoBody order) ++ media.behindInfo order) := by
    rw [bytes_eq, Chunk.head, Chunk.head, hsize]
    rfl
  rw [decode_of_data hdata]
  dsimp only
  split
  · rename_i hfinish
    have hlength := length_bytes order media
    have hdrop : (media.bytes order).drop 12 =
        chunkBytes order .info (media.infoBody order) ++ media.behindInfo order := by
      rw [hdata]
      exact List.drop_left' (by simp [Chunk.head])
    have hcontent : Chunk.content ⟨.list, some .mediaList, 0, size⟩ = 12 := rfl
    obtain ⟨fault, after, hread⟩ := read_flip_eq_error hcontent
      (by rw [hfinish, hlength, encodedLength]; omega) (by omega) hdrop
    exact ⟨fault, congrArg Prod.fst hread⟩
  · exact ⟨_, rfl⟩

/-- A media list of fewer than 2 ^ 24 bytes belongs to the byte order that it is written in: it can be
written, its form spans its bytes, of which there is an even number, it is read back in this order, and it
is refused in the other. -/
theorem encode_belongs_to_order (media : MediaList) (order : ByteOrder)
    (hshort : media.encodedLength < 2 ^ 24) :
    ∃ data, media.encode order = .ok data ∧ data.length = media.encodedLength ∧
      data.length % 2 = 0 ∧
      (∃ list after, Reading.descendForm .list .mediaList (.start order data) = (.ok list, after) ∧
        list.finish = data.length) ∧
      decode order data = .ok media ∧ ∃ fault, decode order.flip data = .error fault := by
  have hfits : media.Fits order := fits_of_encodedLength order (by omega)
  have hlength := length_bytes order media
  exact ⟨media.bytes order, encode_eq_ok.mpr ⟨hfits, rfl⟩, hlength,
    hlength ▸ even_encodedLength media,
    ⟨_, _, descendForm_of_data (media.bytes_eq order), finish_form hfits⟩, decode_bytes hfits,
    decode_flip_eq_error order hshort⟩

/-- A list whose form has a size that reads as the same number in both orders; its reference has the tag
of a form as its kind. -/
def palindromicMedia : MediaList :=
  ⟨1, 2, [⟨0, .list, List.replicate 65748 0⟩]⟩

/-- The number of bytes of a list with one reference. -/
theorem encodedLength_of_single {flags mediaType referenceFlags : UInt32} {kind : Tag} {data : Bytes}
    {length : Nat} (h : data.length = length) :
    encodedLength ⟨flags, mediaType, [⟨referenceFlags, kind, data⟩]⟩ = 52 + (length + length % 2) := by
  simp only [encodedLength, referencesSize, referenceSize, h]
  omega

/-- The size of the form does not tell the orders apart, but the list is refused in the other order. -/
theorem encode_belongs_to_order_palindromic :
    palindromicMedia.encodedLength = 65800 ∧
      ByteOrder.little.encode (65800 - 8) = ByteOrder.big.encode (65800 - 8) ∧
      ∃ data, palindromicMedia.encode .little = .ok data ∧
        decode .little data = .ok palindromicMedia ∧ ∃ fault, decode .big data = .error fault := by
  -- Through the lemma the data are not spelled out when their length is taken.
  have hlength : palindromicMedia.encodedLength = 65800 :=
    encodedLength_of_single List.length_replicate
  obtain ⟨data, hdata, -, -, -, hread, hrefused⟩ :=
    encode_belongs_to_order palindromicMedia .little (by rw [hlength]; decide)
  exact ⟨hlength, by decide, data, hdata, hread, hrefused⟩

end StageArchive.MediaList
