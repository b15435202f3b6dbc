import StageArchive.Proofs.Chunk.Calls
import StageArchive.Proofs.Chunk.Source
/-!
# A table of contents is filled in and read back

Between the call that reserves a table of contents and the one that fills it in, a writer may be called
for anything else. `HasRoom` says what such calls keep: the tag and the size of the table stay as they
were written, its room stays clear, and the entries are collected. Filling it in then puts the entries
where a reader looks for them and nothing anywhere else, which is what `fillContents_read_back` says.
-/

namespace StageArchive

/-- Whether a call neither reserves nor fills in a table of contents, nor declares a byte order. -/
def WriterCall.isInterim : WriterCall → Bool
  | .reserveContents _ | .fillContents => false
  | .openForm _ subtype => subtype.order?.isNone
  | _ => true

namespace Reading

/-- Enters the table of contents at an offset and reads its entries. -/
def contentsAt (start : Nat) : Reading (List ContentsEntry) := do
  seek start
  let chunk ← descend .contents
  contents chunk

/-- A table of contents is read where its chunk lies, from anywhere in the file. -/
theorem contentsAt_of_chunkBytes {source : Source} {start : Nat} {count : UInt32}
    {list : List ContentsEntry} {others : Bytes} (hcount : list.length = count.toNat)
    (hfits : contentsLength count < 2 ^ 32)
    (h : source.data.drop start =
      chunkBytes source.order .contents (contentsBytes source.order count list) ++ others) :
    ∃ after, contentsAt start source = (.ok list, after) := by
  let entered : Source := { source with position := start }
  let body := contentsBytes source.order count list
  have hlength : body.length = contentsLength count :=
    length_contentsBytes_of_full source.order hcount
  have hpadded : padded body = body := padded_contentsBytes source.order count list
  have hrest : entered.rest = chunkBytes entered.order .contents body ++ others := h
  have hdescend := descend_of_chunkBytes rfl hrest
  have hbody := drop_of_chunkBytes h
  rw [padded_contentsBytes] at hbody
  have hcontent : (Chunk.ofBody .contents body start).contentLength = contentsLength count := by
    rw [Chunk.contentLength_ofBody (by rwa [hpadded, hlength]), hpadded, hlength]
  have hread := @contents_of_data { source with position := start + Chunk.headerLength }
    (.ofBody .contents body start) count list others hcount (Nat.le_of_eq hcontent.symm) hbody
  have hseek : seek start source = (.ok (), entered) := rfl
  refine ⟨{ source with position := start + Chunk.headerLength + 4 + list.length * 8 }, ?_⟩
  rw [contentsAt, run_bind_of_eq hseek, run_bind_of_eq hdescend]
  exact hread

end Reading

namespace Writer

/-- A writer of a file that holds some bytes, at a position in it. -/
def onto (order : ByteOrder) (data : Bytes) (position : Nat) : Writer :=
  ⟨⟨data, position, order, none⟩, []⟩

/-- A writer comes by some calls from one of a file that may hold bytes already. -/
def IsReached (writer : Writer) : Prop :=
  ∃ order data position calls, position ≤ data.length ∧
    writer = (onto order data position).after calls

/-- A writer has room for a table of contents, whose chunk starts at an offset, with the entries that were
collected for it. -/
structure HasRoom (writer : Writer) (order : ByteOrder) (start : Nat) (count : UInt32)
    (entries : List ContentsEntry) : Prop where
  clear : writer.Clear start (start + Chunk.headerLength + contentsLength count)
  order_eq : writer.sink.order = order
  reserved_eq : writer.sink.reserved = some ⟨start + Chunk.headerLength, count, entries⟩
  fits : contentsLength count < 2 ^ 32
  head_eq : (writer.sink.data.drop start).take Chunk.headerLength =
    Tag.contents.bytes ++ order.encode (UInt32.ofNat (contentsLength count))

variable {writer : Writer} {order : ByteOrder} {start : Nat} {count : UInt32}
  {entries : List ContentsEntry} {lower upper : Nat}

/-- A range without bytes is clear from the start. -/
theorem clear_onto {order : ByteOrder} {data : Bytes} {position : Nat}
    (h : position ≤ data.length) : (onto order data position).Clear 0 0 :=
  ⟨h, Nat.zero_le _, nofun, nofun⟩

/-- Reserving a table of contents leaves a clear range clear. -/
theorem Clear.call_reserveContents (h : writer.Clear lower upper) (count : UInt32) :
    (writer.call (.reserveContents count)).2.Clear lower upper := by
  rcases Writing.reserveContents_cases_put h.inside count with
    ⟨-, -, hrun⟩ | ⟨fault, after, hrun, hspares⟩
  · have hput := @Sink.spares_put writer.sink lower upper h.inside h.upper_le
      (chunkBytes writer.sink.order .contents (List.replicate (contentsLength count) 0))
    rw [call, take_of_ok hrun]
    refine ⟨hput.inside, Nat.le_trans h.upper_le hput.position_le, fun mark hmark => ?_,
      fun reservation hreservation => ?_⟩
    · obtain ⟨hbehind, hrange⟩ := h.opened mark hmark
      exact ⟨Nat.le_trans hbehind hput.position_le, hrange⟩
    · obtain rfl := Option.some.inj hreservation
      refine ⟨Nat.add_le_add_left ?_ _, Nat.zero_le _⟩
      rw [length_chunkBytes]
      exact Nat.le_add_right ..
  · rw [call, take_of_error hrun]
    exact h.of_spares (hspares lower upper h.upper_le) fun mark hmark => .inl hmark

/-- Every call leaves a clear range clear, though a table of contents may be filled in there. -/
theorem Clear.call (h : writer.Clear lower upper) (call : WriterCall) :
    (writer.call call).2.Clear lower upper := by
  cases call with
  | reserveContents count => exact h.call_reserveContents count
  | addEntry entry =>
      cases hreserved : writer.sink.reserved with
      | none =>
          rw [call_addEntry_of_none hreserved]
          exact h
      | some reservation =>
          obtain ⟨hbody, hroom⟩ := h.reserved _ hreserved
          rw [(call_addEntry_of_some hreserved hroom entry).1]
          refine ⟨h.inside, h.upper_le, h.opened, fun other hother => ?_⟩
          obtain rfl := Option.some.inj hother
          exact ⟨hbody, List.length_take_le ..⟩
  | fillContents =>
      rcases hreserved : writer.sink.reserved with _ | ⟨body, count, entries⟩
      · rw [call_fillContents_of_none hreserved]
        exact h
      · by_cases hcount : entries.length = count.toNat
        · have hbody := Nat.le_trans (h.reserved _ hreserved).1 h.inside
          have hlength := @Sink.length_data_put { writer.sink with position := body } hbody
            (contentsBytes writer.sink.order count entries)
          rw [Writer.call, take_of_ok (Writing.fillContents_of_full hreserved hcount hbody)]
          refine ⟨Nat.le_trans h.inside (hlength ▸ Nat.le_max_left ..), h.upper_le, h.opened,
            fun other hother => ?_⟩
          cases hother
        · rw [call_fillContents_of_ne hreserved hcount]
          refine ⟨h.inside, h.upper_le, h.opened, fun other hother => ?_⟩
          cases hother
  | _ => exact (h.call_spares rfl).1

/-- Any calls leave a clear range clear. -/
theorem Clear.after (h : writer.Clear lower upper) (calls : List WriterCall) :
    (writer.after calls).Clear lower upper := by
  induction calls generalizing writer with
  | nil => exact h
  | cons call calls ih => exact ih (h.call call)

/-- Reserving a table of contents makes room for it at the position. -/
theorem Clear.hasRoom (h : writer.Clear 0 0)
    (hok : (writer.call (.reserveContents count)).1 = .ok none) :
    (writer.call (.reserveContents count)).2.HasRoom writer.sink.order writer.sink.position count
      [] := by
  rcases Writing.reserveContents_cases_put h.inside count with
    ⟨-, hfits, hrun⟩ | ⟨fault, after, hrun, -⟩
  · let zeros : Bytes := List.replicate (contentsLength count) 0
    have hinside := Sink.position_put_le h.inside (chunkBytes writer.sink.order .contents zeros)
    have hposition : (writer.sink.put (chunkBytes writer.sink.order .contents zeros)).position =
        writer.sink.position + Chunk.headerLength + contentsLength count := by
      show writer.sink.position + (chunkBytes writer.sink.order .contents zeros).length = _
      rw [length_chunkBytes, padded_zeros, List.length_replicate, Nat.add_assoc]
      rfl
    have hfront : (writer.sink.data.take writer.sink.position).length = writer.sink.position := by
      rw [List.length_take, Nat.min_eq_left h.inside]
    have hhead : (Tag.contents.bytes ++ writer.sink.order.encode
        (UInt32.ofNat (contentsLength count))).length = Chunk.headerLength := by
      rw [List.length_append, Tag.length_bytes, ByteOrder.length_encode]
      rfl
    rw [Writer.call, take_of_ok hrun]
    refine ⟨⟨hinside, Nat.le_of_eq hposition.symm, fun mark hmark => ?_,
      fun reservation hreservation => ?_⟩, rfl, rfl, hfits, ?_⟩
    · obtain ⟨hbehind, -⟩ := h.opened mark hmark
      exact ⟨Nat.le_trans hbehind (Nat.le_add_right ..), .inl hbehind⟩
    · obtain rfl := Option.some.inj hreservation
      exact ⟨Nat.le_trans (Nat.le_add_right ..) (Nat.le_of_eq hposition.symm), Nat.zero_le _⟩
    · show ((writer.sink.data.take writer.sink.position ++
        chunkBytes writer.sink.order .contents zeros ++ _).drop writer.sink.position).take _ = _
      rw [List.append_assoc, List.drop_left' hfront, chunkBytes, padded_zeros, List.length_replicate,
        List.append_assoc]
      exact List.take_left' hhead
  · rw [Writer.call, take_of_error hrun] at hok
    cases hok

/-- A call in between keeps the room, and adds its entry while there is space for it. -/
theorem HasRoom.call (h : writer.HasRoom order start count entries) {call : WriterCall}
    (hcall : call.isInterim = true) :
    (writer.call call).2.HasRoom order start count
      ((entries ++ call.entry?.toList).take count.toNat) := by
  obtain ⟨-, hroom⟩ := h.clear.reserved _ h.reserved_eq
  dsimp only at hroom
  by_cases hcontents : call.isContents = true
  · cases call with
    | addEntry entry =>
        obtain ⟨hafter, -⟩ := call_addEntry_of_some h.reserved_eq hroom entry
        have hclear := h.clear.call (.addEntry entry)
        rw [hafter] at hclear ⊢
        exact ⟨hclear, h.order_eq, rfl, h.fits, h.head_eq⟩
    | reserveContents | fillContents => cases hcall
    | _ => cases hcontents
  · have hcontents := Bool.not_eq_true _ ▸ hcontents
    have hnone : call.entry? = none := by
      cases call <;> first | rfl | cases hcontents
    have horder : call.order? = none := by
      cases call <;> first | rfl | exact Option.isNone_iff_eq_none.mp hcall
    obtain ⟨hclear, hspares⟩ := h.clear.call_spares hcontents
    rw [hnone, Option.toList_none, List.append_nil, List.take_of_length_le hroom]
    rw [horder] at hspares
    refine ⟨hclear, hspares.order_eq.trans h.order_eq, hspares.reserved_eq.trans h.reserved_eq,
      h.fits, (hspares.slice_eq ?_).trans h.head_eq⟩
    exact Nat.le_add_right ..

/-- Calls in between keep the room, with the entries that they add. -/
theorem HasRoom.after (h : writer.HasRoom order start count entries) {calls : List WriterCall}
    (hcalls : ∀ call ∈ calls, call.isInterim = true) :
    (writer.after calls).HasRoom order start count
      ((entries ++ calls.filterMap WriterCall.entry?).take count.toNat) := by
  induction calls generalizing writer entries with
  | nil =>
      obtain ⟨-, hroom⟩ := h.clear.reserved _ h.reserved_eq
      rw [List.filterMap_nil, List.append_nil, List.take_of_length_le hroom]
      exact h
  | cons call calls ih =>
      have hrest := ih (h.call (hcalls call (List.mem_cons_self ..)))
        fun other hother => hcalls other (List.mem_cons_of_mem _ hother)
      rwa [take_take_append, List.append_assoc, ← WriterCall.filterMap_entry?_cons] at hrest

/-- Filling in a table of contents that has all its entries writes them into its room, and the chunk of
the table is complete. -/
theorem HasRoom.fillContents (h : writer.HasRoom order start count entries)
    (hcount : entries.length = count.toNat) :
    ∃ filled, writer.call .fillContents = (.ok none, filled) ∧
      filled.sink.position = writer.sink.position ∧ filled.sink.order = order ∧
      filled.marks = writer.marks ∧
      (∀ place, place < start + Chunk.headerLength ∨
          start + Chunk.headerLength + contentsLength count ≤ place →
        filled.sink.data[place]? = writer.sink.data[place]?) ∧
      ∃ others, filled.sink.data.drop start =
        chunkBytes order .contents (contentsBytes order count entries) ++ others := by
  obtain rfl := h.order_eq
  obtain ⟨hbody, -⟩ := h.clear.reserved _ h.reserved_eq
  have hinside : start + Chunk.headerLength ≤ writer.sink.data.length :=
    Nat.le_trans hbody h.clear.inside
  have hlength := length_contentsBytes_of_full writer.sink.order hcount
  have hrun := Writing.fillContents_of_full h.reserved_eq hcount hinside
  refine ⟨_, take_of_ok hrun, rfl, rfl, rfl, fun place hplace => ?_, ?_⟩
  · refine @Sink.getElem?_data_put { writer.sink with position := start + Chunk.headerLength } place
      hinside _ ?_
    rwa [hlength]
  · -- The tag and the size come before the room and stay.
    have hhead : (writer.sink.data.take (start + Chunk.headerLength)).drop start =
        Tag.contents.bytes ++ writer.sink.order.encode (UInt32.ofNat (contentsLength count)) := by
      rw [List.drop_take, Nat.add_sub_cancel_left, h.head_eq]
    have hstart : start ≤ (writer.sink.data.take (start + Chunk.headerLength)).length := by
      rw [List.length_take, Nat.min_eq_left hinside]
      exact Nat.le_add_right ..
    refine ⟨writer.sink.data.drop (start + Chunk.headerLength +
      (contentsBytes writer.sink.order count entries).length), ?_⟩
    show (writer.sink.data.take (start + Chunk.headerLength) ++
      contentsBytes writer.sink.order count entries ++ _).drop start = _
    rw [List.append_assoc, List.drop_append_of_le_length hstart, hhead, chunkBytes,
      padded_contentsBytes, hlength]
    exact (List.append_assoc ..).symm

/-- Where there is room for a table of contents no other is reserved. -/
theorem HasRoom.call_reserveContents (h : writer.HasRoom order start count entries)
    (other : UInt32) :
    writer.call (.reserveContents other) = (.error .contentsAlreadyReserved, writer) := by
  obtain ⟨⟨data, position, order, reserved⟩, marks⟩ := writer
  obtain rfl : reserved = _ := h.reserved_eq
  rfl

/-- Where there is no room for another entry none is added. -/
theorem HasRoom.call_addEntry_of_full (h : writer.HasRoom order start count entries)
    (hcount : entries.length = count.toNat) (entry : ContentsEntry) :
    writer.call (.addEntry entry) = (.error (.contentsFull count), writer) := by
  obtain ⟨hafter, ⟨hspace, -⟩ | ⟨-, hanswer⟩⟩ :=
    call_addEntry_of_some h.reserved_eq (Nat.le_of_eq hcount) entry
  · exact absurd hcount hspace
  · refine Prod.ext hanswer (hafter.trans ?_)
    obtain ⟨⟨data, position, order, reserved⟩, marks⟩ := writer
    obtain rfl : reserved = _ := h.reserved_eq
    rw [← hcount, List.take_left]
    rfl

/-- A table of contents that is reserved can be filled in when all its entries were added, whatever else
was called in between, as long as no form declared a byte order. The position stays, no byte outside
the room changes, and a reader finds the entries in the order in which they were added. Until then no
other table is reserved and no entry is added that there is no room for; to try changes nothing. -/
theorem fillContents_read_back (hreached : writer.IsReached) {between : List WriterCall}
    (hreserve : (writer.call (.reserveContents count)).1 = .ok none)
    (hinterim : ∀ call ∈ between, call.isInterim = true)
    (hcount : (between.filterMap WriterCall.entry?).length = count.toNat) :
    (∃ filled,
      ((writer.call (.reserveContents count)).2.after between).call .fillContents =
        (.ok none, filled) ∧
      filled.sink.position =
        ((writer.call (.reserveContents count)).2.after between).sink.position ∧
      filled.marks = ((writer.call (.reserveContents count)).2.after between).marks ∧
      (∀ place, place < writer.sink.position + Chunk.headerLength ∨
          writer.sink.position + Chunk.headerLength + contentsLength count ≤ place →
        filled.sink.data[place]? =
          ((writer.call (.reserveContents count)).2.after between).sink.data[place]?) ∧
      ∀ position, ∃ source,
        Reading.contentsAt writer.sink.position ⟨filled.sink.data, position, filled.sink.order⟩ =
          (.ok (between.filterMap WriterCall.entry?), source)) ∧
    ∀ front back, between = front ++ back →
      (∀ other,
        ((writer.call (.reserveContents count)).2.after front).call (.reserveContents other) =
          (.error .contentsAlreadyReserved,
            (writer.call (.reserveContents count)).2.after front)) ∧
      ((front.filterMap WriterCall.entry?).length = count.toNat → ∀ entry,
        ((writer.call (.reserveContents count)).2.after front).call (.addEntry entry) =
          (.error (.contentsFull count),
            (writer.call (.reserveContents count)).2.after front)) := by
  obtain ⟨order, data, position, calls, hposition, rfl⟩ := hreached
  have hroom := ((clear_onto hposition).after calls).hasRoom hreserve
  refine ⟨?_, fun front back hsplit => ?_⟩
  · have hfull := hroom.after hinterim
    rw [List.nil_append, List.take_of_length_le (Nat.le_of_eq hcount)] at hfull
    obtain ⟨filled, hcall, hstays, horder, hmarks, hbytes, others, hchunk⟩ :=
      hfull.fillContents hcount
    rw [← horder] at hchunk
    exact ⟨filled, hcall, hstays, hmarks, hbytes, fun _ =>
      Reading.contentsAt_of_chunkBytes hcount hfull.fits hchunk⟩
  · have hpart := hroom.after fun call hcall => hinterim call (hsplit ▸ List.mem_append_left _ hcall)
    rw [List.nil_append] at hpart
    refine ⟨fun other => hpart.call_reserveContents other, fun hmany entry => ?_⟩
    rw [List.take_of_length_le (Nat.le_of_eq hmany)] at hpart
    exact hpart.call_addEntry_of_full hmany entry

/-- A table of contents inside a form that was opened over some bytes and is closed before the table is
filled in. -/
theorem fillContents_read_back_inside_form :
    ∃ filled source,
      ((onto .big [1, 2, 3] 1).after [.openForm .form .rootLittle, .reserveContents 2,
        .addEntry ⟨-1, 12⟩, .bytes [7], .close 0, .addEntry ⟨3, 24⟩, .openChunk .group]).call
          .fillContents = (.ok none, filled) ∧
      filled.sink.position = 51 ∧ filled.sink.order = .little ∧ filled.sink.data[0]? = some 1 ∧
      Reading.contentsAt 13 ⟨filled.sink.data, 0, filled.sink.order⟩ =
        (.ok [⟨-1, 12⟩, ⟨3, 24⟩], source) := by
  have hreached : ((onto .big [1, 2, 3] 1).after [.openForm .form .rootLittle]).IsReached :=
    ⟨.big, [1, 2, 3], 1, [.openForm .form .rootLittle], by decide, rfl⟩
  obtain ⟨⟨filled, hcall, hposition, -, hbytes, hread⟩, -⟩ := @fillContents_read_back _ 2 hreached
    [.addEntry ⟨-1, 12⟩, .bytes [7], .close 0, .addEntry ⟨3, 24⟩, .openChunk .group] rfl
    (by decide) rfl
  obtain ⟨source, hsource⟩ := hread 0
  obtain rfl := congrArg Prod.snd hcall
  exact ⟨_, source, hcall, hposition, rfl, hbytes 0 (.inl (by decide)), hsource⟩

end Writer

end StageArchive
