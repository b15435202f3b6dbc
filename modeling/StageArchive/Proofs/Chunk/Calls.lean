import StageArchive.Proofs.Chunk.Frame
/-!
# Any calls of a writer

A writer is called in any order, and a call that is refused is not the last one. Whatever is called,
writing goes on at the end of the file, no byte of it is lost, and the room for a table of contents
stays reserved until a call asks for the table: `call_keeps` says so of one call and `reserved_after`
of many. That one call gives the room up even where it is refused for want of entries, which is the
only way for a file to be finished with a table of zeros; `finish_fills_all_iff` is the main statement.
`Clear.call_spares` goes through the calls that are not about a table, for a writer anywhere in a file.
-/

namespace StageArchive

/-- One call of a writer. -/
inductive WriterCall where
  /-- Asks for the position as an offset. -/
  | offset
  | tag (name : Tag)
  | word (value : UInt32)
  | signedWord (value : Int32)
  | bytes (content : Bytes)
  | openChunk (name : Tag)
  | openForm (name subtype : Tag)
  /-- Closes one of the open chunks; the one that was opened last is at place zero. -/
  | close (place : Nat)
  | chunk (name : Tag) (body : Bytes)
  | reserveContents (count : UInt32)
  | addEntry (entry : ContentsEntry)
  | fillContents
  deriving DecidableEq, Repr

/-- The entry that a call adds to the table of contents. -/
def WriterCall.entry? : WriterCall → Option ContentsEntry
  | .addEntry entry => some entry
  | _ => none

/-- The entry of the first call comes before those of the others. -/
theorem WriterCall.filterMap_entry?_cons (call : WriterCall) (calls : List WriterCall) :
    (call :: calls).filterMap entry? = call.entry?.toList ++ calls.filterMap entry? := by
  rw [List.filterMap_cons]
  cases call.entry? <;> rfl

/-- Whether a call is about the table of contents. -/
def WriterCall.isContents : WriterCall → Bool
  | .reserveContents _ | .addEntry _ | .fillContents => true
  | _ => false

/-- The byte order that a call declares. -/
def WriterCall.order? : WriterCall → Option ByteOrder
  | .openForm _ subtype => subtype.order?
  | _ => none

/-- A file being written, and its open chunks, the one opened last in front. -/
structure Writer where
  sink : Sink
  marks : List ChunkMark
  deriving DecidableEq, Repr

namespace Writer

/-- A writer of an empty file. -/
def start (order : ByteOrder) : Writer :=
  ⟨.start order, []⟩

/-- Takes a step on the file. Its result gives the answer, an offset or a size where there is one, and
the chunks that it opens. -/
def take {α : Type} (writer : Writer) (step : Writing α)
    (give : α → Option UInt32 × List ChunkMark) : Except ChunkFault (Option UInt32) × Writer :=
  match step writer.sink with
  | (.ok result, sink) => (.ok (give result).1, ⟨sink, (give result).2 ++ writer.marks⟩)
  | (.error fault, sink) => (.error fault, { writer with sink := sink })

/-- Makes one call. A mark is given away to close its chunk, also where that is refused, and without a
mark there is no call. -/
def call (writer : Writer) : WriterCall → Except ChunkFault (Option UInt32) × Writer
  | .offset => writer.take Writing.offset fun offset => (some offset, [])
  | .tag name => writer.take (Writing.tag name) fun _ => (none, [])
  | .word value => writer.take (Writing.word value) fun _ => (none, [])
  | .signedWord value => writer.take (Writing.signedWord value) fun _ => (none, [])
  | .bytes content => writer.take (Writing.bytes content) fun _ => (none, [])
  | .openChunk name => writer.take (Writing.openChunk name) fun mark => (none, [mark])
  | .openForm name subtype =>
    writer.take (Writing.openForm name subtype) fun mark => (none, [mark])
  | .close place =>
    match writer.marks[place]? with
    | none => (.ok none, writer)
    | some mark =>
      { writer with marks := writer.marks.eraseIdx place }.take (Writing.close mark) fun size =>
        (some size, [])
  | .chunk name body => writer.take (Writing.chunk name body) fun size => (some size, [])
  | .reserveContents count => writer.take (Writing.reserveContents count) fun _ => (none, [])
  | .addEntry entry => writer.take (Writing.addEntry entry) fun _ => (none, [])
  | .fillContents => writer.take Writing.fillContents fun _ => (none, [])

/-- The writer after some calls, whatever they answer. -/
def after (writer : Writer) (calls : List WriterCall) : Writer :=
  calls.foldl (fun writer call => (writer.call call).2) writer

/-- Calls made one after the other, each with its answer. -/
def transcript (writer : Writer) :
    List WriterCall → List (WriterCall × Except ChunkFault (Option UInt32))
  | [] => []
  | call :: calls => (call, (writer.call call).1) :: transcript (writer.call call).2 calls

/-- Ends the file. -/
def finish (writer : Writer) : Except ChunkFault Bytes :=
  (Writing.finish writer.sink).1

end Writer

namespace Sink

/-- One file comes from another by steps that leave the room for the table of contents as it is: it is
no shorter, and writing goes on at its end. -/
structure Grows (before after : Sink) : Prop where
  atEnd : after.AtEnd
  length_le : before.data.length ≤ after.data.length
  reserved_eq : after.reserved = before.reserved

variable {sink : Sink}

/-- At the end of a file every step that spares a range, if only one without bytes, is such a step. -/
theorem Grows.of_spares {lower upper : Nat} {after : Sink} (hend : sink.AtEnd)
    (h : Spares lower upper sink after) : Grows sink after := by
  refine ⟨?_, ?_, h.reserved_eq⟩
  · have hposition : sink.data.length ≤ after.position :=
      Nat.le_trans (Nat.le_of_eq hend.symm) h.position_le
    rw [AtEnd, h.length_eq, Nat.max_eq_right hposition]
  · rw [h.length_eq]
    exact Nat.le_max_left ..

end Sink

namespace Writing

variable {sink : Sink}

/-- Reserving a table of contents either succeeds and leaves room for it, or leaves what was reserved
as it was. -/
theorem reserveContents_cases (hend : sink.AtEnd) (count : UInt32) :
    (∃ after, reserveContents count sink = (.ok (), after) ∧ sink.reserved = none ∧
      after = (sink.append (chunkBytes sink.order .contents
        (List.replicate (contentsLength count) 0))).withReserved
          (some ⟨sink.data.length + Chunk.headerLength, count, []⟩)) ∨
    ∃ fault after, reserveContents count sink = (.error fault, after) ∧ Sink.Grows sink after := by
  rcases reserveContents_cases_put (Nat.le_of_eq hend) count with
    ⟨hreserved, -, hrun⟩ | ⟨fault, after, hrun, hspares⟩
  · rw [Sink.put_of_atEnd hend, show sink.position = sink.data.length from hend] at hrun
    exact .inl ⟨_, hrun, hreserved, rfl⟩
  · exact .inr ⟨fault, after, hrun, .of_spares hend (hspares 0 0 (Nat.zero_le _))⟩

end Writing

namespace Writer

/-- A range of bytes comes before the position and is clear of the tags and sizes of open chunks, which
come before the position too. So does the beginning of the room for a table of contents, which has no
more entries than there is room for. -/
structure Clear (writer : Writer) (lower upper : Nat) : Prop where
  inside : writer.sink.position ≤ writer.sink.data.length
  upper_le : upper ≤ writer.sink.position
  opened : ∀ mark ∈ writer.marks, mark.offset + Chunk.headerLength ≤ writer.sink.position ∧
    (mark.offset + Chunk.headerLength ≤ lower ∨ upper ≤ mark.offset)
  reserved : ∀ reservation, writer.sink.reserved = some reservation →
    reservation.body ≤ writer.sink.position ∧
      reservation.entries.length ≤ reservation.count.toNat

/-- What every run keeps: writing goes on at the end of the file, an open chunk has its tag and size in
it, and so has the table of contents the room that is reserved for it, for no fewer entries than were
added. -/
structure IsSound (writer : Writer) : Prop where
  atEnd : writer.sink.AtEnd
  opened : ∀ mark ∈ writer.marks,
    mark.offset + Chunk.headerLength ≤ writer.sink.data.length
  reserved : ∀ reservation, writer.sink.reserved = some reservation →
    reservation.body + contentsLength reservation.count ≤ writer.sink.data.length ∧
      reservation.entries.length ≤ reservation.count.toNat

/-- A writer is sound from the start. -/
theorem isSound_start (order : ByteOrder) : (start order).IsSound :=
  ⟨rfl, nofun, nofun⟩

variable {writer : Writer} {lower upper : Nat}

section Take

variable {α : Type} {step : Writing α} {give : α → Option UInt32 × List ChunkMark}

/-- A step that is known to succeed. -/
theorem take_of_ok {result : α} {sink : Sink} (h : step writer.sink = (.ok result, sink)) :
    writer.take step give = (.ok (give result).1, ⟨sink, (give result).2 ++ writer.marks⟩) := by
  unfold take
  rw [h]

/-- A step that is known to be refused. -/
theorem take_of_error {fault : ChunkFault} {sink : Sink}
    (h : step writer.sink = (.error fault, sink)) :
    writer.take step give = (.error fault, { writer with sink := sink }) := by
  unfold take
  rw [h]

/-- A step changes the file of a writer as it does without the writer. -/
theorem sink_take : (writer.take step give).2.sink = (step writer.sink).2 := by
  unfold take
  split <;> rename_i hstep <;> rw [hstep]

/-- A range that is spared stays clear when chunks are opened only from the position on. -/
theorem Clear.of_spares (h : writer.Clear lower upper) {after : Writer}
    (hspares : Sink.Spares lower upper writer.sink after.sink)
    (hopened : ∀ mark ∈ after.marks, mark ∈ writer.marks ∨ writer.sink.position ≤ mark.offset ∧
      mark.offset + Chunk.headerLength ≤ after.sink.position) : after.Clear lower upper := by
  refine ⟨hspares.inside, Nat.le_trans h.upper_le hspares.position_le, fun mark hmark => ?_,
    fun reservation hreservation => ?_⟩
  · rcases hopened mark hmark with hmark | ⟨hstart, hend⟩
    · exact ⟨Nat.le_trans (h.opened mark hmark).1 hspares.position_le, (h.opened mark hmark).2⟩
    · exact ⟨hend, .inr (Nat.le_trans h.upper_le hstart)⟩
  · obtain ⟨hbody, hentries⟩ := h.reserved reservation (hspares.reserved_eq ▸ hreservation)
    exact ⟨Nat.le_trans hbody hspares.position_le, hentries⟩

/-- A step that opens no chunk. -/
theorem Clear.take (h : writer.Clear lower upper)
    (hspares : Sink.Spares lower upper writer.sink (step writer.sink).2)
    (hgive : ∀ result, (give result).2 = []) :
    (writer.take step give).2.Clear lower upper ∧
      Sink.Spares lower upper writer.sink (writer.take step give).2.sink := by
  rw [sink_take]
  refine ⟨h.of_spares (sink_take ▸ hspares) fun mark hmark => .inl ?_, hspares⟩
  unfold Writer.take at hmark
  split at hmark
  · simpa [hgive] using hmark
  · exact hmark

end Take

/-- Without an open chunk there is nothing to close. -/
theorem call_close_of_none {place : Nat} (h : writer.marks[place]? = none) :
    writer.call (.close place) = (.ok none, writer) := by
  simp only [call, h]

/-- The chunk that is closed is no longer open. -/
theorem call_close_of_some {place : Nat} {mark : ChunkMark}
    (h : writer.marks[place]? = some mark) :
    writer.call (.close place) =
      { writer with marks := writer.marks.eraseIdx place }.take (Writing.close mark) fun size =>
        (some size, []) := by
  simp only [call, h]

/-- A form is opened at the position, in the byte order that it declares. -/
theorem Clear.call_openForm (h : writer.Clear lower upper) (name subtype : Tag) :
    (writer.call (.openForm name subtype)).2.Clear lower upper ∧
      Sink.Spares lower upper { writer.sink with order := subtype.order?.getD writer.sink.order }
        (writer.call (.openForm name subtype)).2.sink := by
  let opened : Writer :=
    { writer with sink := { writer.sink with order := subtype.order?.getD writer.sink.order } }
  have hopened : opened.Clear lower upper := ⟨h.inside, h.upper_le, h.opened, h.reserved⟩
  have hput := @Sink.spares_put opened.sink lower upper h.inside h.upper_le
    (name.bytes ++ [0, 0, 0, 0] ++ subtype.bytes)
  rw [call, take_of_ok (Writing.openForm_eq_put h.inside name subtype)]
  refine ⟨hopened.of_spares hput fun mark hmark => ?_, hput⟩
  rcases List.mem_cons.mp hmark with rfl | hmark
  · refine .inr ⟨Nat.le_refl _, ?_⟩
    show opened.sink.position + Chunk.headerLength ≤ (opened.sink.put _).position
    rw [Writing.position_put_opened]
    exact Nat.le_add_right ..
  · exact .inl hmark

/-- A call that is not about the table of contents leaves a clear range as it was, and clear. -/
theorem Clear.call_spares (h : writer.Clear lower upper) {call : WriterCall}
    (hcall : call.isContents = false) :
    (writer.call call).2.Clear lower upper ∧
      Sink.Spares lower upper { writer.sink with order := call.order?.getD writer.sink.order }
        (writer.call call).2.sink := by
  have hbytes (content : Bytes) :
      Sink.Spares lower upper writer.sink (Writing.bytes content writer.sink).2 :=
    Sink.spares_put h.inside h.upper_le content
  cases call with
  | offset =>
      refine h.take ?_ fun _ => rfl
      show Sink.Spares _ _ _
        ((ite (writer.sink.position < 2 ^ 32) _ _ : Writing UInt32) writer.sink).2
      split <;> exact .refl h.inside
  | tag name => exact h.take (hbytes name.bytes) fun _ => rfl
  | word value => exact h.take (hbytes (writer.sink.order.encode value)) fun _ => rfl
  | signedWord value =>
      exact h.take (hbytes (writer.sink.order.encode value.toUInt32)) fun _ => rfl
  | bytes content => exact h.take (hbytes content) fun _ => rfl
  | openChunk name =>
      have hput := @Sink.spares_put writer.sink lower upper h.inside h.upper_le
        (name.bytes ++ [0, 0, 0, 0])
      rw [Writer.call, take_of_ok (Writing.openChunk_eq_put h.inside name)]
      refine ⟨h.of_spares hput fun mark hmark => ?_, hput⟩
      rcases List.mem_cons.mp hmark with rfl | hmark
      · exact .inr ⟨Nat.le_refl _, Nat.le_refl _⟩
      · exact .inl hmark
  | openForm name subtype => exact h.call_openForm name subtype
  | close place =>
      cases hplace : writer.marks[place]? with
      | none =>
          rw [call_close_of_none hplace]
          exact ⟨h, .refl h.inside⟩
      | some mark =>
          rw [call_close_of_some hplace]
          -- The mark is taken off first; the marks that are left still keep clear of the range.
          have hothers :
              ({ writer with marks := writer.marks.eraseIdx place } : Writer).Clear lower upper :=
            h.of_spares (.refl h.inside) fun other hother => .inl (List.mem_of_mem_eraseIdx hother)
          obtain ⟨hmark, hrange⟩ := h.opened mark (List.mem_of_getElem? hplace)
          exact hothers.take (Writing.spares_close h.inside h.upper_le hmark hrange) fun _ => rfl
  | chunk name body =>
      exact h.take (Writing.spares_chunk h.inside h.upper_le name body) fun _ => rfl
  | reserveContents count => cases hcall
  | addEntry entry => cases hcall
  | fillContents => cases hcall

/-- A writer stays sound when its file grows and the chunks that it opens lie in it. -/
theorem IsSound.of_grows (h : writer.IsSound) {after : Writer}
    (hgrows : Sink.Grows writer.sink after.sink)
    (hopened : ∀ mark ∈ after.marks, mark ∈ writer.marks ∨
      mark.offset + Chunk.headerLength ≤ after.sink.data.length) : after.IsSound := by
  refine ⟨hgrows.atEnd, fun mark hmark => ?_, fun reservation hreservation => ?_⟩
  · rcases hopened mark hmark with hmark | hmark
    · exact Nat.le_trans (h.opened mark hmark) hgrows.length_le
    · exact hmark
  · obtain ⟨hroom, hentries⟩ := h.reserved reservation (hgrows.reserved_eq ▸ hreservation)
    exact ⟨Nat.le_trans hroom hgrows.length_le, hentries⟩

/-- In a sound writer a range without bytes is clear. -/
theorem IsSound.clear (h : writer.IsSound) : writer.Clear 0 0 := by
  have hend : writer.sink.data.length = writer.sink.position := h.atEnd.symm
  refine ⟨Nat.le_of_eq h.atEnd, Nat.zero_le _, fun mark hmark => ⟨?_, .inr (Nat.zero_le _)⟩,
    fun reservation hreservation => ⟨?_, (h.reserved reservation hreservation).2⟩⟩
  · exact Nat.le_trans (h.opened mark hmark) (Nat.le_of_eq hend)
  · exact Nat.le_trans (Nat.le_add_right ..)
      (Nat.le_trans (h.reserved reservation hreservation).1 (Nat.le_of_eq hend))

/-- A call that has nothing to do with the table of contents keeps the room that is reserved for it. -/
theorem IsSound.call_grows (h : writer.IsSound) {call : WriterCall}
    (hcall : call.isContents = false) :
    (writer.call call).2.IsSound ∧ Sink.Grows writer.sink (writer.call call).2.sink := by
  obtain ⟨hclear, hspares⟩ := h.clear.call_spares hcall
  have hend : ({ writer.sink with order := call.order?.getD writer.sink.order } : Sink).AtEnd :=
    h.atEnd
  obtain ⟨hatEnd, hlength, hreserved⟩ := Sink.Grows.of_spares hend hspares
  have hgrows : Sink.Grows writer.sink (writer.call call).2.sink := ⟨hatEnd, hlength, hreserved⟩
  refine ⟨h.of_grows hgrows fun mark hmark => .inr ?_, hgrows⟩
  exact Nat.le_trans (hclear.opened mark hmark).1 hclear.inside

/-- Asking for room succeeds when none is reserved, and is refused with no change to what is. -/
theorem IsSound.call_reserveContents (h : writer.IsSound) (count : UInt32) :
    (writer.call (.reserveContents count)).2.IsSound ∧
    ((writer.call (.reserveContents count)).1 = .ok none ∧ writer.sink.reserved = none ∧
        (writer.call (.reserveContents count)).2.sink.reserved =
          some ⟨writer.sink.data.length + Chunk.headerLength, count, []⟩ ∨
      ∃ fault, (writer.call (.reserveContents count)).1 = .error fault ∧
        (writer.call (.reserveContents count)).2.sink.reserved = writer.sink.reserved) := by
  rcases Writing.reserveContents_cases h.atEnd count with
    ⟨after, hrun, hnone, rfl⟩ | ⟨fault, after, hrun, hgrows⟩
  · rw [call, take_of_ok hrun]
    refine ⟨⟨Sink.atEnd_append _ _, fun mark hmark => ?_, fun reservation hreservation => ?_⟩,
      .inl ⟨rfl, hnone, rfl⟩⟩
    · refine Nat.le_trans (h.opened mark hmark) ?_
      show _ ≤ (writer.sink.data ++ chunkBytes _ _ _).length
      rw [List.length_append]
      exact Nat.le_add_right ..
    · obtain rfl := Option.some.inj hreservation
      refine ⟨?_, Nat.zero_le _⟩
      show _ ≤ (writer.sink.data ++ chunkBytes _ _ _).length
      rw [List.length_append, length_chunkBytes, padded_zeros, List.length_replicate]
      exact Nat.le_of_eq (Nat.add_assoc ..)
  · rw [call, take_of_error hrun]
    exact ⟨h.of_grows hgrows fun mark hmark => .inl hmark, .inr ⟨fault, rfl, hgrows.reserved_eq⟩⟩

/-- Without room for a table of contents no entry is added. -/
theorem call_addEntry_of_none (h : writer.sink.reserved = none) (entry : ContentsEntry) :
    writer.call (.addEntry entry) = (.error .contentsNotReserved, writer) := by
  obtain ⟨⟨data, position, order, reserved⟩, marks⟩ := writer
  obtain rfl : reserved = none := h
  rfl

/-- An entry is added while there is room for it. -/
theorem call_addEntry_of_some {reservation : Reservation}
    (h : writer.sink.reserved = some reservation)
    (hroom : reservation.entries.length ≤ reservation.count.toNat) (entry : ContentsEntry) :
    (writer.call (.addEntry entry)).2 = { writer with
      sink := writer.sink.withReserved (some { reservation with
        entries := (reservation.entries ++ [entry]).take reservation.count.toNat }) } ∧
    (reservation.entries.length ≠ reservation.count.toNat ∧
        (writer.call (.addEntry entry)).1 = .ok none ∨
      reservation.entries.length = reservation.count.toNat ∧
        (writer.call (.addEntry entry)).1 = .error (.contentsFull reservation.count)) := by
  by_cases hfull : reservation.entries.length = reservation.count.toNat
  · have hrun : Writing.addEntry entry writer.sink =
        (.error (.contentsFull reservation.count), writer.sink) := by
      obtain ⟨⟨data, position, order, reserved⟩, marks⟩ := writer
      obtain rfl : reserved = some reservation := h
      show (ite (reservation.entries.length = reservation.count.toNat) _ _ : Writing Unit) _ = _
      rw [if_pos hfull]
      rfl
    rw [call, take_of_error hrun, ← hfull, List.take_left, ← h]
    exact ⟨rfl, .inr ⟨rfl, rfl⟩⟩
  · have hrun := (@Writing.addEntry_eq_ok _ _ entry _ h).mpr ⟨hfull, rfl⟩
    rw [call, take_of_ok hrun, List.take_of_length_le (by simp; omega)]
    exact ⟨rfl, .inl ⟨hfull, rfl⟩⟩

/-- Without room for a table of contents there is none to fill in. -/
theorem call_fillContents_of_none (h : writer.sink.reserved = none) :
    writer.call .fillContents = (.error .contentsNotReserved, writer) := by
  obtain ⟨⟨data, position, order, reserved⟩, marks⟩ := writer
  obtain rfl : reserved = none := h
  rfl

/-- Filling in the table of contents succeeds, and puts as many entries as were reserved into the room
for them, which begins at an offset. Nothing else changes. -/
def Fills (writer : Writer) (body : Nat) (count : UInt32) (entries : List ContentsEntry) : Prop :=
  entries.length = count.toNat ∧
    ∃ front hole rest, writer.sink.data = front ++ hole ++ rest ∧ front.length = body ∧
      hole.length = contentsLength count ∧
      writer.call .fillContents = (.ok none, { writer with
        sink := (writer.sink.withData
          (front ++ contentsBytes writer.sink.order count entries ++ rest)).withReserved none })

/-- A table of contents that has all its entries is filled in. -/
theorem IsSound.fills (h : writer.IsSound) {body : Nat} {count : UInt32}
    {entries : List ContentsEntry} (hreserved : writer.sink.reserved = some ⟨body, count, entries⟩)
    (hcount : entries.length = count.toNat) : writer.Fills body count entries := by
  obtain ⟨hroom, -⟩ := h.reserved _ hreserved
  dsimp only at hroom
  have hfront : (writer.sink.data.take body).length = body := by
    rw [List.length_take]
    omega
  have hhole : ((writer.sink.data.drop body).take (contentsLength count)).length =
      contentsLength count := by
    rw [List.length_take, List.length_drop]
    omega
  have hdata : writer.sink.data = writer.sink.data.take body ++
      (writer.sink.data.drop body).take (contentsLength count) ++
        (writer.sink.data.drop body).drop (contentsLength count) := by
    rw [List.append_assoc, List.take_append_drop, List.take_append_drop]
  refine ⟨hcount, _, _, _, hdata, hfront, hhole, ?_⟩
  have hrun := (Writing.fillContents_eq_ok h.atEnd (by rw [hfront, hreserved]) hdata hhole).mpr
    ⟨hcount, rfl⟩
  rw [call, take_of_ok hrun]
  rfl

/-- A table of contents that lacks entries is not filled in, and its room is given up. -/
theorem call_fillContents_of_ne {body : Nat} {count : UInt32} {entries : List ContentsEntry}
    (hreserved : writer.sink.reserved = some ⟨body, count, entries⟩)
    (hcount : entries.length ≠ count.toNat) :
    writer.call .fillContents = (.error (.contentsCountMismatch count entries.length),
      { writer with sink := writer.sink.withReserved none }) := by
  have hrun : Writing.fillContents writer.sink =
      (.error (.contentsCountMismatch count entries.length), writer.sink.withReserved none) := by
    obtain ⟨⟨data, position, order, reserved⟩, marks⟩ := writer
    obtain rfl : reserved = some ⟨body, count, entries⟩ := hreserved
    show (ite (entries.length ≠ count.toNat) _ _ : Writing Unit) _ = _
    rw [if_pos hcount]
    rfl
  exact take_of_error hrun

/-- A call to fill in the table of contents leaves no room reserved, whether it succeeds or not, and as
many bytes as there were. -/
theorem IsSound.call_fillContents (h : writer.IsSound) :
    (writer.call .fillContents).2.IsSound ∧
      (writer.call .fillContents).2.sink.reserved = none := by
  rcases hreserved : writer.sink.reserved with _ | ⟨body, count, entries⟩
  · rw [call_fillContents_of_none hreserved]
    exact ⟨h, hreserved⟩
  · by_cases hcount : entries.length = count.toNat
    · obtain ⟨-, front, hole, rest, hdata, -, hhole, hcall⟩ := h.fills hreserved hcount
      have hlength : (front ++ contentsBytes writer.sink.order count entries ++ rest).length =
          writer.sink.data.length := by
        simp only [hdata, List.length_append, length_contentsBytes, hcount, hhole, contentsLength]
      rw [hcall]
      refine ⟨⟨rfl, fun mark hmark => ?_, fun other hother => ?_⟩, rfl⟩
      · exact hlength.symm ▸ h.opened mark hmark
      · cases hother
    · rw [call_fillContents_of_ne hreserved hcount]
      refine ⟨⟨h.atEnd, h.opened, fun other hother => ?_⟩, rfl⟩
      cases hother

/-- Room that is reserved stays until the table of contents is asked for, with every entry that is
added while there is space for it. -/
theorem IsSound.call_keeps (h : writer.IsSound) {reservation : Reservation}
    (hreserved : writer.sink.reserved = some reservation) {call : WriterCall}
    (hcall : call ≠ .fillContents) :
    (writer.call call).2.IsSound ∧ (writer.call call).2.sink.reserved =
      some { reservation with
        entries := (reservation.entries ++ call.entry?.toList).take reservation.count.toNat } := by
  obtain ⟨-, hroom⟩ := h.reserved _ hreserved
  -- A call that adds no entry leaves the list of entries as long as it was, within the count.
  have hsame : ({ reservation with
      entries := (reservation.entries ++ []).take reservation.count.toNat } : Reservation) =
        reservation := by
    rw [List.append_nil, List.take_of_length_le hroom]
  by_cases hcontents : call.isContents = true
  · cases call with
    | reserveContents count =>
        obtain ⟨hsound, ⟨-, hnone, -⟩ | ⟨fault, -, hkept⟩⟩ := h.call_reserveContents count
        · cases hnone.symm.trans hreserved
        · exact ⟨hsound, hkept.trans (hreserved.trans (congrArg some hsame.symm))⟩
    | addEntry entry =>
        obtain ⟨hafter, -⟩ := call_addEntry_of_some hreserved hroom entry
        rw [hafter]
        refine ⟨⟨h.atEnd, h.opened, fun other hother => ?_⟩, rfl⟩
        obtain rfl := Option.some.inj hother
        exact ⟨(h.reserved _ hreserved).1, List.length_take_le ..⟩
    | fillContents => exact absurd rfl hcall
    | _ => cases hcontents
  · have hnone : call.entry? = none := by
      cases call <;> first | rfl | exact absurd rfl hcontents
    obtain ⟨hsound, hgrows⟩ := h.call_grows (Bool.not_eq_true _ ▸ hcontents)
    rw [hnone]
    exact ⟨hsound, hgrows.reserved_eq.trans (hreserved.trans (congrArg some hsame.symm))⟩

/-- Where no room is reserved only one call reserves it. -/
theorem IsSound.call_of_none (h : writer.IsSound) (hnone : writer.sink.reserved = none)
    (call : WriterCall) :
    (writer.call call).2.IsSound ∧ ((writer.call call).2.sink.reserved = none ∨
      ∃ count, call = .reserveContents count ∧ (writer.call call).1 = .ok none ∧
        (writer.call call).2.sink.reserved =
          some ⟨writer.sink.data.length + Chunk.headerLength, count, []⟩) := by
  by_cases hcontents : call.isContents = true
  · cases call with
    | reserveContents count =>
        obtain ⟨hsound, ⟨hok, -, hreserved⟩ | ⟨fault, -, hkept⟩⟩ := h.call_reserveContents count
        · exact ⟨hsound, .inr ⟨count, rfl, hok, hreserved⟩⟩
        · exact ⟨hsound, .inl (hkept.trans hnone)⟩
    | addEntry entry =>
        rw [call_addEntry_of_none hnone]
        exact ⟨h, .inl hnone⟩
    | fillContents => exact ⟨h.call_fillContents.1, .inl h.call_fillContents.2⟩
    | _ => cases hcontents
  · obtain ⟨hsound, hgrows⟩ := h.call_grows (Bool.not_eq_true _ ▸ hcontents)
    exact ⟨hsound, .inl (hgrows.reserved_eq.trans hnone)⟩

/-- Every call leaves a sound writer. -/
theorem IsSound.call (h : writer.IsSound) (call : WriterCall) : (writer.call call).2.IsSound := by
  by_cases hfill : call = .fillContents
  · rw [hfill]
    exact h.call_fillContents.1
  · cases hreserved : writer.sink.reserved with
    | none => exact (h.call_of_none hreserved call).1
    | some reservation => exact (h.call_keeps hreserved hfill).1

/-- Calls in two parts. -/
theorem after_append (writer : Writer) (front back : List WriterCall) :
    writer.after (front ++ back) = (writer.after front).after back :=
  List.foldl_append

/-- Any calls leave a sound writer. -/
theorem IsSound.after (h : writer.IsSound) (calls : List WriterCall) :
    (writer.after calls).IsSound := by
  induction calls generalizing writer with
  | nil => exact h
  | cons call calls ih => exact ih (h.call call)

/-- What there is no space for now there is no space for after more is added. -/
theorem take_take_append {α : Type} (items others : List α) (limit : Nat) :
    (items.take limit ++ others).take limit = (items ++ others).take limit := by
  rw [List.take_append, List.take_append, List.take_take, Nat.min_self, List.length_take]
  congr 2
  omega

/-- Room that is reserved stays, with the entries that are added, until the table of contents is asked
for. -/
theorem IsSound.reserved_after (h : writer.IsSound) {reservation : Reservation}
    (hreserved : writer.sink.reserved = some reservation) {calls : List WriterCall}
    (hcalls : .fillContents ∉ calls) :
    (writer.after calls).sink.reserved = some { reservation with
      entries := (reservation.entries ++ calls.filterMap WriterCall.entry?).take
        reservation.count.toNat } := by
  induction calls generalizing writer reservation with
  | nil =>
      show writer.sink.reserved = _
      rw [hreserved, List.filterMap_nil, List.append_nil,
        List.take_of_length_le (h.reserved _ hreserved).2]
  | cons call calls ih =>
      obtain ⟨hcall, hcalls⟩ := not_or.mp fun hmem => hcalls (List.mem_cons.mpr hmem)
      obtain ⟨hsound, hkept⟩ := h.call_keeps hreserved (Ne.symm hcall)
      show ((writer.call call).2.after calls).sink.reserved = _
      rw [ih hsound hkept hcalls, WriterCall.filterMap_entry?_cons, ← List.append_assoc]
      dsimp only
      rw [take_take_append]

/-- Room that is reserved after some calls was reserved before them or by one of them, and none behind
asks for the table of contents. -/
theorem IsSound.exists_reserveContents (h : writer.IsSound) {calls : List WriterCall}
    (hafter : (writer.after calls).sink.reserved ≠ none) :
    writer.sink.reserved ≠ none ∧ .fillContents ∉ calls ∨
      ∃ front count between, calls = front ++ .reserveContents count :: between ∧
        .fillContents ∉ between ∧
        ((writer.after front).call (.reserveContents count)).1 = .ok none := by
  induction calls generalizing writer with
  | nil => exact .inl ⟨hafter, nofun⟩
  | cons call calls ih =>
      rcases ih (h.call call) hafter with
        ⟨hreserved, hcalls⟩ | ⟨front, count, between, rfl, hbetween, hok⟩
      · by_cases hnone : writer.sink.reserved = none
        · rcases (h.call_of_none hnone call).2 with hstill | ⟨count, rfl, hok, -⟩
          · exact absurd hstill hreserved
          · exact .inr ⟨[], count, calls, rfl, hcalls, hok⟩
        · refine .inl ⟨hnone, fun hmem => ?_⟩
          rcases List.mem_cons.mp hmem with rfl | hmem
          · exact hreserved h.call_fillContents.2
          · exact hcalls hmem
      · exact .inr ⟨call :: front, count, between, rfl, hbetween, hok⟩

/-- The calls of a transcript and their answers. -/
theorem mem_transcript {calls : List WriterCall} {call : WriterCall}
    {answer : Except ChunkFault (Option UInt32)} :
    (call, answer) ∈ writer.transcript calls ↔ ∃ front back, calls = front ++ call :: back ∧
      ((writer.after front).call call).1 = answer := by
  induction calls generalizing writer with
  | nil =>
      constructor
      · intro h
        cases h
      · rintro ⟨front, back, h, -⟩
        cases front <;> cases h
  | cons first calls ih =>
      rw [transcript, List.mem_cons, ih]
      constructor
      · rintro (h | ⟨front, back, rfl, hanswer⟩)
        · cases h
          exact ⟨[], calls, rfl, rfl⟩
        · exact ⟨first :: front, back, rfl, hanswer⟩
      · rintro ⟨front, back, h, hanswer⟩
        cases front with
        | nil =>
            cases h
            exact .inl (by rw [← hanswer]; rfl)
        | cons other front =>
            cases h
            exact .inr ⟨front, back, rfl, hanswer⟩

/-- Every table of contents that room is reserved for is filled in later, in that room and with all its
entries: those added in between. -/
def FillsAll (writer : Writer) (calls : List WriterCall) : Prop :=
  ∀ front count back, calls = front ++ .reserveContents count :: back →
    ((writer.after front).call (.reserveContents count)).1 = .ok none →
    ∃ between later, back = between ++ .fillContents :: later ∧ .fillContents ∉ between ∧
      (writer.after (front ++ .reserveContents count :: between)).Fills
        ((writer.after front).sink.data.length + Chunk.headerLength) count
        ((between.filterMap WriterCall.entry?).take count.toNat)

/-- What is reserved when the table of contents is asked for the first time after room was reserved. -/
theorem IsSound.reserved_between (h : writer.IsSound) {front between : List WriterCall}
    {count : UInt32}
    (hok : ((writer.after front).call (.reserveContents count)).1 = .ok none)
    (hbetween : .fillContents ∉ between) :
    (writer.after (front ++ .reserveContents count :: between)).sink.reserved =
      some ⟨(writer.after front).sink.data.length + Chunk.headerLength, count,
        (between.filterMap WriterCall.entry?).take count.toNat⟩ := by
  obtain ⟨hsound, ⟨-, -, hreserved⟩ | ⟨fault, herror, -⟩⟩ :=
    (h.after front).call_reserveContents count
  · rw [after_append]
    exact hsound.reserved_after hreserved hbetween
  · cases hok.symm.trans herror

/-- A call that is refused leaves the room for the table of contents as it is, unless it asks for a
table that lacks entries. -/
theorem IsSound.reserved_of_error (h : writer.IsSound) {call : WriterCall} {fault : ChunkFault}
    (herror : (writer.call call).1 = .error fault) :
    (writer.call call).2.sink.reserved = writer.sink.reserved ∨
      call = .fillContents ∧ ∃ body count entries,
        writer.sink.reserved = some ⟨body, count, entries⟩ ∧ entries.length < count.toNat ∧
          fault = .contentsCountMismatch count entries.length ∧
          (writer.call call).2 = { writer with sink := writer.sink.withReserved none } := by
  by_cases hcontents : call.isContents = true
  · cases call with
    | reserveContents count =>
        obtain ⟨-, ⟨hok, -⟩ | ⟨_, -, hkept⟩⟩ := h.call_reserveContents count
        · cases hok.symm.trans herror
        · exact .inl hkept
    | addEntry entry =>
        cases hreserved : writer.sink.reserved with
        | none =>
            rw [call_addEntry_of_none hreserved]
            exact .inl hreserved
        | some reservation =>
            have hroom := (h.reserved _ hreserved).2
            obtain ⟨hafter, ⟨-, hok⟩ | ⟨hfull, -⟩⟩ := call_addEntry_of_some hreserved hroom entry
            · cases hok.symm.trans herror
            · rw [hafter, ← hfull, List.take_left]
              exact .inl rfl
    | fillContents =>
        rcases hreserved : writer.sink.reserved with _ | ⟨body, count, entries⟩
        · rw [call_fillContents_of_none hreserved]
          exact .inl hreserved
        · by_cases hcount : entries.length = count.toNat
          · obtain ⟨-, _, _, _, -, -, -, hcall⟩ := h.fills hreserved hcount
            rw [hcall] at herror
            cases herror
          · have hless : entries.length < count.toNat :=
              Nat.lt_of_le_of_ne (h.reserved _ hreserved).2 hcount
            have hcall := call_fillContents_of_ne hreserved hcount
            rw [hcall] at herror ⊢
            cases herror
            exact .inr ⟨rfl, body, count, entries, rfl, hless, rfl, rfl⟩
    | _ => cases hcontents
  · exact .inl (h.call_grows (Bool.not_eq_true _ ▸ hcontents)).2.reserved_eq

/-- A file is finished when no room is reserved. -/
theorem exists_finish_iff :
    (∃ bytes, writer.finish = .ok bytes) ↔ writer.sink.reserved = none := by
  obtain ⟨⟨data, position, order, reserved⟩, marks⟩ := writer
  cases reserved with
  | none => exact ⟨fun _ => rfl, fun _ => ⟨data, rfl⟩⟩
  | some reservation => exact ⟨nofun, nofun⟩

/-- The first occurrence in a list has one place. -/
theorem eq_of_append_cons {α : Type} {item : α} {front back front' back' : List α}
    (h : front ++ item :: back = front' ++ item :: back') (hfront : item ∉ front)
    (hfront' : item ∉ front') : front = front' := by
  rcases List.append_eq_append_iff.mp h with ⟨rest, rfl, hrest⟩ | ⟨rest, rfl, hrest⟩
  · cases rest with
    | nil => exact (List.append_nil front).symm
    | cons head rest =>
        cases hrest
        exact absurd (List.mem_append_right front (List.mem_cons_self ..)) hfront'
  · cases rest with
    | nil => exact List.append_nil front'
    | cons head rest =>
        cases hrest
        exact absurd (List.mem_append_right front' (List.mem_cons_self ..)) hfront

/-- What a writer that finishes its file has done about tables of contents, whatever was called and
refused on the way. A refused call leaves the room for a table as it is, with the one exception of a
call that asks for a table that lacks entries: that call writes nothing and gives the room up. Every
table is filled in, in its room and with all its entries, exactly when no such call was made. -/
theorem finish_fills_all_iff (order : ByteOrder) (calls : List WriterCall) :
    (∀ front call back fault, calls = front ++ call :: back →
      (((start order).after front).call call).1 = .error fault →
        (((start order).after front).call call).2.sink.reserved =
            ((start order).after front).sink.reserved ∨
          call = .fillContents ∧ ∃ body count entries,
            ((start order).after front).sink.reserved = some ⟨body, count, entries⟩ ∧
            entries.length < count.toNat ∧
            fault = .contentsCountMismatch count entries.length ∧
            (((start order).after front).call call).2 = { (start order).after front with
              sink := ((start order).after front).sink.withReserved none }) ∧
    ((∃ bytes, ((start order).after calls).finish = .ok bytes) →
      ((start order).FillsAll calls ↔ ∀ count written,
        (.fillContents, .error (.contentsCountMismatch count written)) ∉
          (start order).transcript calls)) := by
  have hstart := isSound_start order
  refine ⟨fun front call back fault _ herror => (hstart.after front).reserved_of_error herror,
    fun hfinish => ⟨fun hall count written hmem => ?_, fun hnone front count back heq hok => ?_⟩⟩
  · obtain ⟨front, back, rfl, herror⟩ := mem_transcript.mp hmem
    have hreserved : ((start order).after front).sink.reserved ≠ none := fun hnone => by
      rw [call_fillContents_of_none hnone] at herror
      cases herror
    -- The room that this fill found was reserved by an earlier call, whose first fill succeeds.
    obtain ⟨h, -⟩ | ⟨earlier, count, between, rfl, hbetween, hok⟩ :=
      hstart.exists_reserveContents hreserved
    · exact h rfl
    · obtain ⟨others, later, heq, hothers, -, _, _, _, -, -, -, hcall⟩ :=
        hall earlier count (between ++ .fillContents :: back) (by simp) hok
      obtain rfl : between = others := eq_of_append_cons heq hbetween hothers
      rw [hcall] at herror
      cases herror
  · -- Without a fill the room would still be reserved at the end, and `finish` would refuse it.
    have hlast : WriterCall.fillContents ∈ back := by
      refine Decidable.byContradiction fun hmem => ?_
      have hreserved := hstart.reserved_between hok hmem
      rw [← heq, exists_finish_iff.mp hfinish] at hreserved
      cases hreserved
    obtain ⟨between, later, rfl, hbetween⟩ := List.eq_append_cons_of_mem hlast
    refine ⟨between, later, rfl, hbetween, ?_⟩
    have hsound := hstart.after (front ++ .reserveContents count :: between)
    have hreserved := hstart.reserved_between hok hbetween
    refine hsound.fills hreserved ?_
    refine Decidable.byContradiction fun hcount => ?_
    have hanswer := congrArg Prod.fst (call_fillContents_of_ne hreserved hcount)
    exact hnone _ _ (mem_transcript.mpr ⟨front ++ .reserveContents count :: between, later,
      by simp [heq], hanswer⟩)

/-- Two tables of contents are reserved and filled in among calls that are refused. -/
def twoTables : List WriterCall :=
  [.addEntry ⟨0, 9⟩, .openForm .form .rootLittle, .reserveContents 2, .addEntry ⟨-1, 12⟩,
    .reserveContents 1, .word 5, .addEntry ⟨3, 24⟩, .addEntry ⟨0, 0⟩, .close 0, .fillContents,
    .fillContents, .reserveContents 0, .fillContents]

/-- What these calls answer. -/
def twoTablesAnswers : List (Except ChunkFault (Option UInt32)) :=
  [.error .contentsNotReserved, .ok none, .ok none, .ok none, .error .contentsAlreadyReserved,
    .ok none, .ok none, .error (.contentsFull 2), .ok (some 36), .ok none,
    .error .contentsNotReserved, .ok none, .ok none]

/-- Of the refused calls none gives room up, and both tables are filled in. -/
theorem finish_fills_all_twoTables :
    (∃ bytes, ((start .big).after twoTables).finish = .ok bytes) ∧
      ((start .big).transcript twoTables).map (·.2) = twoTablesAnswers ∧
      (start .big).FillsAll twoTables := by
  have hfinish : ∃ bytes, ((start .big).after twoTables).finish = .ok bytes := ⟨_, rfl⟩
  have hanswers : ((start .big).transcript twoTables).map (·.2) = twoTablesAnswers := rfl
  refine ⟨hfinish, hanswers, ((finish_fills_all_iff .big twoTables).2 hfinish).mpr ?_⟩
  intro count written hmem
  have hanswer := hanswers ▸ List.mem_map_of_mem (f := Prod.snd) hmem
  simp [twoTablesAnswers] at hanswer

/-- A table of contents that lacks its only entry is asked for and refused, and its room is given up: the
file is finished with zeros in it. -/
theorem finish_unfilled :
    (start .big).transcript [.reserveContents 1, .fillContents] =
        [(.reserveContents 1, .ok none), (.fillContents, .error (.contentsCountMismatch 1 0))] ∧
      ((start .big).after [.reserveContents 1, .fillContents]).finish =
        .ok (Tag.contents.bytes ++ [0, 0, 0, 12] ++ List.replicate 12 0) ∧
      ¬ (start .big).FillsAll [.reserveContents 1, .fillContents] := by
  refine ⟨rfl, rfl, fun hall => ?_⟩
  obtain ⟨between, later, heq, -, hcount, -⟩ := hall [] 1 [.fillContents] rfl rfl
  cases between with
  | nil => cases hcount
  | cons call between => cases between <;> cases heq

end Writer

end StageArchive
