import StageArchive.Proofs.Chunk.Sink
/-!
# What writing leaves alone

A file may be written from inside it, over what is there. Every step goes on from the position, and
before the position it changes only the size of a chunk that it closes. `Spares` says that a step leaves
a range of bytes before the position as it was, and there is a lemma for each step. `chunk_of_even` and
`reserveContents_cases_put` say which bytes a whole chunk and a table of contents write over the others.
-/

namespace StageArchive

namespace Sink

/-- One file comes from another by steps that leave a range of bytes as it was: the position moves on,
and the end of the file with it once it is reached, and nothing else changes but bytes outside the
range. -/
structure Spares (lower upper : Nat) (before after : Sink) : Prop where
  length_eq : after.data.length = max before.data.length after.position
  position_le : before.position ≤ after.position
  order_eq : after.order = before.order
  reserved_eq : after.reserved = before.reserved
  byte_eq : ∀ place, lower ≤ place → place < upper → after.data[place]? = before.data[place]?

variable {sink : Sink} {lower upper : Nat}

/-- Where nothing is written the byte stays. -/
theorem getElem?_data_put {place : Nat} (h : sink.position ≤ sink.data.length) (bytes : Bytes)
    (hplace : place < sink.position ∨ sink.position + bytes.length ≤ place) :
    (sink.put bytes).data[place]? = sink.data[place]? := by
  have hfront : (sink.data.take sink.position).length = sink.position := by
    rw [List.length_take, Nat.min_eq_left h]
  show (sink.data.take sink.position ++ bytes ++
    sink.data.drop (sink.position + bytes.length))[place]? = _
  rcases hplace with hplace | hplace
  · rw [List.append_assoc, List.getElem?_append_left (hfront.symm ▸ hplace),
      List.getElem?_take_of_lt hplace]
  · have hbehind : (sink.data.take sink.position ++ bytes).length ≤ place := by
      rwa [List.length_append, hfront]
    rw [List.getElem?_append_right hbehind, List.length_append, hfront, List.getElem?_drop,
      Nat.add_sub_cancel' hplace]

/-- Writing makes a file longer where it ends behind the data. -/
theorem length_data_put (h : sink.position ≤ sink.data.length) (bytes : Bytes) :
    (sink.put bytes).data.length = max sink.data.length (sink.position + bytes.length) := by
  simp only [put, List.length_append, List.length_take, List.length_drop]
  omega

/-- To do nothing spares every range. -/
theorem Spares.refl (h : sink.position ≤ sink.data.length) : Spares lower upper sink sink :=
  ⟨(Nat.max_eq_left h).symm, Nat.le_refl _, rfl, rfl, fun _ _ _ => rfl⟩

/-- Two steps spare what each of them does. -/
theorem Spares.trans {middle after : Sink} (hfirst : Spares lower upper sink middle)
    (hsecond : Spares lower upper middle after) : Spares lower upper sink after := by
  refine ⟨?_, Nat.le_trans hfirst.position_le hsecond.position_le,
    hsecond.order_eq.trans hfirst.order_eq, hsecond.reserved_eq.trans hfirst.reserved_eq,
    fun place hlower hupper =>
      (hsecond.byte_eq place hlower hupper).trans (hfirst.byte_eq place hlower hupper)⟩
  rw [hsecond.length_eq, hfirst.length_eq, Nat.max_assoc, Nat.max_eq_right hsecond.position_le]

/-- The position stays inside the data. -/
theorem Spares.inside {after : Sink} (h : Spares lower upper sink after) :
    after.position ≤ after.data.length := by
  rw [h.length_eq]
  exact Nat.le_max_right ..

/-- Writing spares what comes before the position. -/
theorem spares_put (h : sink.position ≤ sink.data.length) (hupper : upper ≤ sink.position)
    (bytes : Bytes) : Spares lower upper sink (sink.put bytes) :=
  ⟨length_data_put h bytes, Nat.le_add_right .., rfl, rfl, fun _ _ hplace =>
    getElem?_data_put h bytes (.inl (Nat.lt_of_lt_of_le hplace hupper))⟩

/-- Bytes in a range that is spared are the same bytes. -/
theorem Spares.slice_eq {after : Sink} {count : Nat} (h : Spares lower upper sink after)
    (hcount : lower + count ≤ upper) :
    (after.data.drop lower).take count = (sink.data.drop lower).take count := by
  refine List.ext_getElem? fun place => ?_
  rw [List.getElem?_take, List.getElem?_take, List.getElem?_drop, List.getElem?_drop]
  split
  · exact h.byte_eq _ (Nat.le_add_right ..) (by omega)
  · rfl

end Sink

namespace Writing

variable {sink : Sink} {lower upper : Nat}

/-- Closing a chunk with a body of even length only puts in its size. -/
theorem spares_close_even {mark : ChunkMark} (h : sink.position ≤ sink.data.length)
    (hmark : mark.offset + Chunk.headerLength ≤ sink.position)
    (hrange : mark.offset + Chunk.headerLength ≤ lower ∨ upper ≤ mark.offset)
    (heven : ¬ (sink.position - (mark.offset + Chunk.headerLength)) % 2 = 1) :
    Sink.Spares lower upper sink (close mark sink).2 := by
  have hheader : Chunk.headerLength = 8 := rfl
  rw [close_of_even heven]
  dsimp only
  split
  · exact .refl h
  · let size := sink.order.encode
      (UInt32.ofNat (sink.position - (mark.offset + Chunk.headerLength)))
    have hsize : size.length = 4 := ByteOrder.length_encode ..
    have hinside : mark.offset + 4 ≤ sink.data.length := by omega
    have hlength := @Sink.length_data_put { sink with position := mark.offset + 4 } hinside size
    refine ⟨hlength.trans ?_, Nat.le_refl _, rfl, rfl, fun place hlower hupper => ?_⟩
    · show max sink.data.length (mark.offset + 4 + size.length) = max sink.data.length sink.position
      omega
    · refine @Sink.getElem?_data_put { sink with position := mark.offset + 4 } place hinside size ?_
      show place < mark.offset + 4 ∨ mark.offset + 4 + size.length ≤ place
      omega

/-- Closing a chunk pads its body and puts in its size, if that fits. -/
theorem spares_close {mark : ChunkMark} (h : sink.position ≤ sink.data.length)
    (hupper : upper ≤ sink.position)
    (hmark : mark.offset + Chunk.headerLength ≤ sink.position)
    (hrange : mark.offset + Chunk.headerLength ≤ lower ∨ upper ≤ mark.offset) :
    Sink.Spares lower upper sink (close mark sink).2 := by
  by_cases hodd : (sink.position - (mark.offset + Chunk.headerLength)) % 2 = 1
  · have hput := @Sink.spares_put sink lower upper h hupper [0]
    have heven : ¬ ((sink.put [0]).position - (mark.offset + Chunk.headerLength)) % 2 = 1 := by
      show ¬ (sink.position + 1 - (mark.offset + Chunk.headerLength)) % 2 = 1
      omega
    rw [close_of_odd hodd hmark]
    exact hput.trans
      (spares_close_even hput.inside (Nat.le_trans hmark hput.position_le) hrange heven)
  · exact spares_close_even h hmark hrange hodd

/-- Opening a chunk writes its tag and zeros for its size at the position. -/
theorem openChunk_eq_put (h : sink.position ≤ sink.data.length) (name : Tag) :
    openChunk name sink =
      (.ok ⟨name, sink.position⟩, sink.put (name.bytes ++ [0, 0, 0, 0])) := by
  rw [← Sink.put_put h]
  rfl

/-- Opening a form writes a second tag behind these, in the byte order that the form declares. -/
theorem openForm_eq_put (h : sink.position ≤ sink.data.length) (name subtype : Tag) :
    openForm name subtype sink =
      (.ok ⟨name, sink.position⟩,
        ({ sink with order := subtype.order?.getD sink.order } : Sink).put
          (name.bytes ++ [0, 0, 0, 0] ++ subtype.bytes)) := by
  let opened : Sink := { sink with order := subtype.order?.getD sink.order }
  have hopened : opened.position ≤ opened.data.length := h
  have hrun : openForm name subtype sink =
      (.ok ⟨name, sink.position⟩,
        ((opened.put name.bytes).put [0, 0, 0, 0]).put subtype.bytes) := by
    unfold openForm
    cases horder : subtype.order? <;> simp only [opened, horder] <;> rfl
  rw [hrun, Sink.put_put hopened, Sink.put_put hopened]

/-- The position behind the body of a chunk that was opened at another. -/
theorem position_put_opened (sink : Sink) (name : Tag) (body : Bytes) :
    (sink.put (name.bytes ++ [0, 0, 0, 0] ++ body)).position =
      sink.position + Chunk.headerLength + body.length := by
  show sink.position + (name.bytes ++ [0, 0, 0, 0] ++ body).length = _
  rw [List.length_append, List.length_append, Tag.length_bytes, ← Nat.add_assoc]
  rfl

/-- A whole chunk is opened at the position, given its body and closed. -/
theorem chunk_eq_close (h : sink.position ≤ sink.data.length) (name : Tag) (body : Bytes) :
    chunk name body sink =
      close ⟨name, sink.position⟩ (sink.put (name.bytes ++ [0, 0, 0, 0] ++ body)) := by
  have hput := Sink.put_put h (name.bytes ++ [0, 0, 0, 0]) body
  rw [chunk, run_bind_of_eq (openChunk_eq_put h name), ← hput]
  rfl

/-- A whole chunk spares what comes before the position. -/
theorem spares_chunk (h : sink.position ≤ sink.data.length) (hupper : upper ≤ sink.position)
    (name : Tag) (body : Bytes) : Sink.Spares lower upper sink (chunk name body sink).2 := by
  have hput := @Sink.spares_put sink lower upper h hupper (name.bytes ++ [0, 0, 0, 0] ++ body)
  rw [chunk_eq_close h]
  refine hput.trans (spares_close hput.inside (Nat.le_trans hupper hput.position_le) ?_
    (.inr hupper))
  rw [position_put_opened]
  exact Nat.le_add_right ..

/-- A whole chunk with a body of even length is written over what is there, unless its size does not
fit in a word. -/
theorem chunk_of_even {body : Bytes} (h : sink.position ≤ sink.data.length) (name : Tag)
    (heven : body.length % 2 = 0) :
    chunk name body sink =
      if 2 ^ 32 ≤ body.length then
        (.error (.sizeOverflow body.length), sink.put (name.bytes ++ [0, 0, 0, 0] ++ body))
      else (.ok (UInt32.ofNat body.length), sink.put (chunkBytes sink.order name body)) := by
  let written : Sink := sink.put (name.bytes ++ [0, 0, 0, 0] ++ body)
  let size := sink.order.encode (UInt32.ofNat body.length)
  have hsize : size.length = 4 := ByteOrder.length_encode ..
  have hposition : written.position = sink.position + Chunk.headerLength + body.length :=
    position_put_opened sink name body
  have hlength : written.position - (sink.position + Chunk.headerLength) = body.length := by
    rw [hposition, Nat.add_sub_cancel_left]
  have hfront : (sink.data.take sink.position ++ name.bytes).length = sink.position + 4 := by
    rw [List.length_append, List.length_take, Nat.min_eq_left h, Tag.length_bytes]
  have hdata : written.data = sink.data.take sink.position ++ name.bytes ++ [0, 0, 0, 0] ++
      (body ++ sink.data.drop written.position) := by
    simp only [written, Sink.put, List.append_assoc]
  -- The size takes the place of the zeros that were written for it.
  have hput := @Sink.put_of_data_eq { written with position := sink.position + 4 } _ _ _ size hdata
    hfront.symm hsize
  have hchunk : sink.put (chunkBytes sink.order name body) =
      { ({ written with position := sink.position + 4 } : Sink).put size with
        position := written.position } := by
    have hbytes : sink.position + (chunkBytes sink.order name body).length = written.position := by
      rw [length_chunkBytes, padded_of_even heven, hposition, Nat.add_assoc]
      rfl
    rw [hput, Sink.put, hbytes, chunkBytes, padded_of_even heven]
    simp only [List.append_assoc]
    rfl
  have hclose := @close_of_even ⟨name, sink.position⟩ written (by rw [hlength, heven]; decide)
  dsimp only at hclose
  rw [hlength] at hclose
  rw [chunk_eq_close h, hchunk]
  exact hclose

/-- Reserving a table of contents writes zeros for it at the position, or leaves what was reserved. -/
theorem reserveContents_cases_put (h : sink.position ≤ sink.data.length) (count : UInt32) :
    (sink.reserved = none ∧ contentsLength count < 2 ^ 32 ∧
        reserveContents count sink = (.ok (), (sink.put (chunkBytes sink.order .contents
          (List.replicate (contentsLength count) 0))).withReserved
            (some ⟨sink.position + Chunk.headerLength, count, []⟩))) ∨
      ∃ fault after, reserveContents count sink = (.error fault, after) ∧
        ∀ lower upper, upper ≤ sink.position → Sink.Spares lower upper sink after := by
  cases hreserved : sink.reserved with
  | some reservation =>
      have hrefused : reserveContents count sink = (.error .contentsAlreadyReserved, sink) := by
        show (ite (sink.reserved.isSome) _ _ : Writing Unit) sink = _
        rw [hreserved]
        rfl
      exact .inr ⟨_, _, hrefused, fun lower upper _ => .refl h⟩
  | none =>
      have hrun : reserveContents count sink =
          (chunk .contents (List.replicate (contentsLength count) 0) >>= fun _ =>
            (modify (·.withReserved (some ⟨sink.position + Chunk.headerLength, count, []⟩)) :
              Writing Unit)) sink := by
        show (ite (sink.reserved.isSome) _ _ : Writing Unit) sink = _
        rw [hreserved]
        rfl
      -- Contents are a whole number of words, so closing them adds no padding.
      have heven : (List.replicate (contentsLength count) (0 : UInt8)).length % 2 = 0 := by
        rw [List.length_replicate, contentsLength]
        omega
      have hchunk := chunk_of_even h .contents heven
      rw [List.length_replicate] at hchunk
      by_cases hfits : 2 ^ 32 ≤ contentsLength count
      · rw [if_pos hfits] at hchunk
        exact .inr ⟨_, _, hrun.trans (run_bind_of_error hchunk), fun lower upper hupper =>
          Sink.spares_put h hupper _⟩
      · rw [if_neg hfits] at hchunk
        exact .inl ⟨rfl, Nat.lt_of_not_le hfits, hrun.trans (run_bind_of_eq hchunk)⟩

end Writing

end StageArchive
