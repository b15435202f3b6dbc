import StageArchive.Proofs.Chunk.Calls
/-!
# What closing a chunk changes

A chunk is closed at the end of a file, with anything written since it was opened: words, whole chunks, forms,
tables of contents. `Closes` says what that does to the file, and `Writing.close_cases` when it is done. The
main statement is `close_patches_size`, about every chunk that is closed after any calls of a writer. A whole
chunk and the room for a table of contents are no exception, since both are opened and closed in the same way.
-/

namespace StageArchive

/-- One file comes from another by closing a chunk with a size. The size is even and counts the bytes from the
body to the new end; it stands behind the chunk's tag, in the byte order of the file. A body of odd length has
one more zero behind it, and every other byte is the same as before. -/
structure Closes (mark : ChunkMark) (before after : Sink) (size : UInt32) : Prop where
  even : size.toNat % 2 = 0
  finish_eq : mark.offset + Chunk.headerLength + size.toNat = after.data.length
  stored : (after.data.drop (mark.offset + 4)).take 4 = after.order.encode size
  appended : after.data.drop before.data.length =
    padding (before.data.length - (mark.offset + Chunk.headerLength))
  byte_eq : ∀ place < before.data.length,
    place < mark.offset + 4 ∨ mark.offset + Chunk.headerLength ≤ place →
      after.data[place]? = before.data[place]?
  atEnd : after.AtEnd
  order_eq : after.order = before.order
  reserved_eq : after.reserved = before.reserved

/-- Bytes outside a part stay when other bytes of the same length take its place, also before an end that is
added. -/
theorem getElem?_of_outside {front hole word body : Bytes} (added : Bytes) {place : Nat}
    (hlength : word.length = hole.length) (hplace : place < (front ++ hole ++ body).length)
    (houtside : place < front.length ∨ front.length + hole.length ≤ place) :
    (front ++ word ++ (body ++ added))[place]? = (front ++ hole ++ body)[place]? := by
  rcases houtside with hbefore | hbehind
  · rw [List.append_assoc, List.append_assoc, List.getElem?_append_left hbefore,
      List.getElem?_append_left hbefore]
  · have hword : (front ++ word).length = front.length + hole.length := by
      rw [List.length_append, hlength]
    have hhole : (front ++ hole).length = front.length + hole.length := List.length_append
    rw [List.length_append, hhole] at hplace
    have hbody : place - (front.length + hole.length) < body.length := by omega
    rw [List.getElem?_append_right (Nat.le_trans (Nat.le_of_eq hword) hbehind), hword,
      List.getElem?_append_left hbody,
      List.getElem?_append_right (Nat.le_trans (Nat.le_of_eq hhole) hbehind), hhole]

namespace Writing

variable {mark : ChunkMark} {sink : Sink}

/-- A file with a chunk that was opened in it: what stands before the chunk's size, the size, and its body. -/
theorem exists_split (h : mark.offset + Chunk.headerLength ≤ sink.data.length) :
    ∃ front hole body, sink.data = front ++ hole ++ body ∧ front.length = mark.offset + 4 ∧
      hole.length = 4 ∧
      body.length = sink.data.length - (mark.offset + Chunk.headerLength) := by
  have hheader : Chunk.headerLength = 8 := rfl
  refine ⟨sink.data.take (mark.offset + 4), (sink.data.drop (mark.offset + 4)).take 4,
    (sink.data.drop (mark.offset + 4)).drop 4, ?_, ?_, ?_, ?_⟩
  · rw [List.append_assoc, List.take_append_drop, List.take_append_drop]
  · rw [List.length_take]
    omega
  · rw [List.length_take, List.length_drop]
    omega
  · rw [List.length_drop, List.length_drop]
    omega

/-- The size of the padded body takes the place of four bytes, and nothing else changes. -/
theorem closes_of_split {front hole body : Bytes} (hdata : sink.data = front ++ hole ++ body)
    (hfront : front.length = mark.offset + 4) (hhole : hole.length = 4)
    (hfits : (padded body).length < 2 ^ 32) :
    Closes mark sink
      (sink.withData
        (front ++ sink.order.encode (UInt32.ofNat (padded body).length) ++ padded body))
      (UInt32.ofNat (padded body).length) := by
  have hsize : (UInt32.ofNat (padded body).length).toNat = (padded body).length :=
    UInt32.toNat_ofNat_of_lt' hfits
  have hbefore : sink.data.length = mark.offset + Chunk.headerLength + body.length := by
    rw [hdata, List.length_append, List.length_append, hfront, hhole]
    rfl
  have hheader : Chunk.headerLength = 8 := rfl
  have hword : (sink.order.encode (UInt32.ofNat (padded body).length)).length = 4 :=
    ByteOrder.length_encode ..
  refine ⟨?_, ?_, ?_, ?_, fun place hplace houtside => ?_, rfl, rfl, rfl⟩
  · rw [hsize, length_padded]
    omega
  · show _ = (_ ++ _ ++ _ : Bytes).length
    rw [hsize, List.length_append, List.length_append, hfront, hword]
    rfl
  · show ((_ ++ _ ++ _ : Bytes).drop _).take _ = sink.order.encode _
    rw [← hfront, List.append_assoc, List.drop_left, ← hword, List.take_left]
  · show (_ ++ _ ++ _ : Bytes).drop _ = _
    -- The patch is as long as the hole, so the padding begins where the data ended.
    have hlength : sink.data.length =
        (front ++ sink.order.encode (UInt32.ofNat (padded body).length) ++ body).length := by
      rw [hbefore, List.length_append, List.length_append, hfront, hword]
      rfl
    rw [hlength, padded, ← List.append_assoc, ← padded, List.drop_left, ← hlength, hbefore,
      Nat.add_sub_cancel_left]
  · show (_ ++ _ ++ padded body : Bytes)[place]? = _
    rw [hdata, padded]
    rw [hdata] at hplace
    refine getElem?_of_outside _ (hword.trans hhole.symm) hplace ?_
    rw [hfront, hhole]
    exact houtside

/-- A size that does not fit in a word is refused, behind the padding. -/
theorem close_of_great (hend : sink.AtEnd)
    (hmark : mark.offset + Chunk.headerLength ≤ sink.data.length) {length size : Nat}
    (hlength : length = sink.data.length - (mark.offset + Chunk.headerLength))
    (hsize : size = length + length % 2) (hgreat : 2 ^ 32 ≤ size) :
    close mark sink = (.error (.sizeOverflow size), sink.append (padding length)) := by
  have hposition : sink.position - (mark.offset + Chunk.headerLength) = length := by
    rw [hend, hlength]
  have hinside : mark.offset + Chunk.headerLength ≤ sink.position := hend ▸ hmark
  by_cases hodd : length % 2 = 1
  · have hput : sink.put [0] = sink.append [0] := Sink.put_of_atEnd hend [0]
    have hafter : (sink.append [0]).position - (mark.offset + Chunk.headerLength) = size := by
      rw [hsize, hodd, ← hposition, ← hput]
      show sink.position + 1 - _ = _
      omega
    have heven : ¬ size % 2 = 1 := by
      omega
    rw [close_of_odd (by rw [hposition, hodd]) hinside, hput,
      close_of_even (by rwa [hafter]), hafter]
    dsimp only
    rw [if_pos hgreat, padding, if_pos hodd]
  · have hwhole : size = length := by
      omega
    rw [close_of_even (by rwa [hposition]), hposition, ← hwhole]
    dsimp only
    rw [if_pos hgreat, padding, if_neg (hwhole ▸ hodd), Sink.append_nil hend]

/-- At the end of a file an open chunk is closed with the size of its padded body, if that fits in a word. -/
theorem close_cases (hend : sink.AtEnd)
    (hmark : mark.offset + Chunk.headerLength ≤ sink.data.length) {length size : Nat}
    (hlength : length = sink.data.length - (mark.offset + Chunk.headerLength))
    (hsize : size = length + length % 2) :
    (size < 2 ^ 32 → ∃ after, close mark sink = (.ok (UInt32.ofNat size), after) ∧
      Closes mark sink after (UInt32.ofNat size)) ∧
    (2 ^ 32 ≤ size →
      close mark sink = (.error (.sizeOverflow size), sink.append (padding length))) := by
  refine ⟨fun hfits => ?_, close_of_great hend hmark hlength hsize⟩
  obtain ⟨front, hole, body, hdata, hfront, hhole, hbody⟩ := exists_split hmark
  obtain rfl : length = body.length := hlength.trans hbody.symm
  obtain rfl : size = (padded body).length := hsize.trans (length_padded body).symm
  exact ⟨_, (close_eq_ok hdata hfront hhole hend).mpr ⟨hfits, rfl, rfl⟩,
    closes_of_split hdata hfront hhole hfits⟩

end Writing

namespace Writer

variable {writer : Writer}

/-- A whole chunk is opened, given its body and closed. -/
theorem call_chunk_eq (writer : Writer) (name : Tag) (body : Bytes) :
    writer.call (.chunk name body) =
      (writer.after [.openChunk name, .bytes body]).call (.close 0) := rfl

/-- The room for a table of contents is opened, filled with zeros and closed, and then reserved. -/
theorem call_reserveContents_eq (h : writer.sink.reserved = none) (count : UInt32) :
    writer.call (.reserveContents count) =
      let room : Reservation := ⟨writer.sink.position + Chunk.headerLength, count, []⟩
      match (writer.after [.openChunk .contents,
        .bytes (List.replicate (contentsLength count) 0)]).call (.close 0) with
      | (.ok _, closed) => (.ok none, ⟨closed.sink.withReserved (some room), closed.marks⟩)
      | (.error fault, closed) => (.error fault, closed) := by
  obtain ⟨⟨data, position, order, reserved⟩, marks⟩ := writer
  obtain rfl : reserved = none := h
  have hzeros : Writing.reserveContents count ⟨data, position, order, none⟩ =
      (Writing.chunk .contents (List.replicate (contentsLength count) 0) >>= fun _ =>
        (modify (·.withReserved (some ⟨position + Chunk.headerLength, count, []⟩)) :
          Writing Unit)) ⟨data, position, order, none⟩ := rfl
  rw [← call_chunk_eq]
  simp only [call, take, hzeros]
  cases hchunk : Writing.chunk .contents (List.replicate (contentsLength count) 0)
      ⟨data, position, order, none⟩ with
  | mk outcome sink =>
      cases outcome with
      | ok size => rw [run_bind_of_eq hchunk]; rfl
      | error fault => rw [run_bind_of_error hchunk]

/-- A chunk or a form is opened at the end of a sound writer's file. -/
theorem IsSound.marks_call_open (h : writer.IsSound) (name subtype : Tag) :
    (writer.call (.openChunk name)).2.marks = ⟨name, writer.sink.data.length⟩ :: writer.marks ∧
      (writer.call (.openForm name subtype)).2.marks =
        ⟨name, writer.sink.data.length⟩ :: writer.marks := by
  have hinside : writer.sink.position ≤ writer.sink.data.length := Nat.le_of_eq h.atEnd
  rw [Writer.call, Writer.call, take_of_ok (Writing.openChunk_eq h.atEnd name),
    take_of_ok (Writing.openForm_eq_put hinside name subtype), h.atEnd]
  exact ⟨rfl, rfl⟩

/-- Any of the open chunks of a sound writer is closed with the size of its padded body, or refused where that
size does not fit in a word. It is no longer open either way. -/
theorem IsSound.call_close (h : writer.IsSound) {place : Nat} {mark : ChunkMark}
    (hplace : writer.marks[place]? = some mark) {length size : Nat}
    (hlength : length = writer.sink.data.length - (mark.offset + Chunk.headerLength))
    (hsize : size = length + length % 2) :
    (size < 2 ^ 32 → ∃ closed,
      writer.call (.close place) =
        (.ok (some (UInt32.ofNat size)), ⟨closed, writer.marks.eraseIdx place⟩) ∧
      Closes mark writer.sink closed (UInt32.ofNat size)) ∧
    (2 ^ 32 ≤ size →
      writer.call (.close place) = (.error (.sizeOverflow size),
        ⟨writer.sink.append (padding length), writer.marks.eraseIdx place⟩)) := by
  have hmark := h.opened mark (List.mem_of_getElem? hplace)
  obtain ⟨hfits, hgreat⟩ := Writing.close_cases h.atEnd hmark hlength hsize
  rw [call_close_of_some hplace]
  refine ⟨fun hless => ?_, fun hle => take_of_error (hgreat hle)⟩
  obtain ⟨closed, hclose, hcloses⟩ := hfits hless
  exact ⟨closed, take_of_ok hclose, hcloses⟩

/-- What closing a chunk does, after any calls and with any chunks open. Writing always goes on at the end of
the file, and there a chunk is opened. Each chunk that is closed gets the size of its padded body, and the
file changes as `Closes` says; a size that does not fit in a word is refused. A whole chunk and the room for a
table of contents are closed as every other chunk. -/
theorem close_patches_size (order : ByteOrder) (calls : List WriterCall) :
    let writer := (start order).after calls
    writer.sink.position = writer.sink.data.length ∧
    (∀ name subtype,
      (writer.call (.openChunk name)).2.marks = ⟨name, writer.sink.data.length⟩ :: writer.marks ∧
      (writer.call (.openForm name subtype)).2.marks =
        ⟨name, writer.sink.data.length⟩ :: writer.marks) ∧
    (∀ place mark, writer.marks[place]? = some mark →
      let length := writer.sink.data.length - (mark.offset + Chunk.headerLength)
      let size := length + length % 2
      (size < 2 ^ 32 → ∃ closed,
        writer.call (.close place) =
          (.ok (some (UInt32.ofNat size)), ⟨closed, writer.marks.eraseIdx place⟩) ∧
        Closes mark writer.sink closed (UInt32.ofNat size)) ∧
      (2 ^ 32 ≤ size →
        writer.call (.close place) = (.error (.sizeOverflow size),
          ⟨writer.sink.append (padding length), writer.marks.eraseIdx place⟩))) ∧
    (∀ name body, writer.call (.chunk name body) =
      (writer.after [.openChunk name, .bytes body]).call (.close 0)) ∧
    (writer.sink.reserved = none → ∀ count, writer.call (.reserveContents count) =
      let room : Reservation := ⟨writer.sink.position + Chunk.headerLength, count, []⟩
      match (writer.after [.openChunk .contents,
        .bytes (List.replicate (contentsLength count) 0)]).call (.close 0) with
      | (.ok _, closed) => (.ok none, ⟨closed.sink.withReserved (some room), closed.marks⟩)
      | (.error fault, closed) => (.error fault, closed)) := by
  intro writer
  have hsound : writer.IsSound := (isSound_start order).after calls
  exact ⟨hsound.atEnd, hsound.marks_call_open,
    fun place mark hplace => hsound.call_close hplace rfl rfl, call_chunk_eq writer,
    call_reserveContents_eq⟩

/-- A form with a table of contents in it, which is filled in while a chunk behind it is open. -/
def openBehindTable : List WriterCall :=
  [.openForm .form .rootLittle, .reserveContents 1, .addEntry ⟨0, 32⟩, .openChunk .info,
    .fillContents, .bytes [1, 2, 3]]

/-- Closing the inner chunk pads its three bytes, and closing the form then counts the padding. -/
theorem close_patches_size_behindTable :
    ((start .big).after openBehindTable).marks[0]? = some ⟨.info, 32⟩ ∧
    (∃ closed, ((start .big).after openBehindTable).call (.close 0) =
        (.ok (some 4), ⟨closed, [⟨.form, 0⟩]⟩) ∧
      Closes ⟨.info, 32⟩ ((start .big).after openBehindTable).sink closed 4) ∧
    ∃ closed, ((start .big).after (openBehindTable ++ [.close 0])).call (.close 0) =
        (.ok (some 36), ⟨closed, []⟩) ∧
      Closes ⟨.form, 0⟩ ((start .big).after (openBehindTable ++ [.close 0])).sink closed 36 := by
  have hinner : ((start .big).after openBehindTable).marks[0]? = some ⟨.info, 32⟩ := rfl
  have houter : ((start .big).after (openBehindTable ++ [.close 0])).marks[0]? =
      some ⟨.form, 0⟩ := rfl
  obtain ⟨-, -, hclose, -⟩ := close_patches_size .big openBehindTable
  obtain ⟨-, -, hcloseForm, -⟩ := close_patches_size .big (openBehindTable ++ [.close 0])
  exact ⟨hinner, (hclose 0 _ hinner).1 (by decide), (hcloseForm 0 _ houter).1 (by decide)⟩

end Writer

end StageArchive
