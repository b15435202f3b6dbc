import StageArchive.Chunk.Sink
import StageArchive.Proofs.Outcome
/-!
# What writing chunks leaves in a file

Writing goes on at the end of a file, apart from the sizes of chunks and the table of contents, which
are put in later over zeros of the same length. `chunk_eq_ok`, `reserveContents_eq_ok` and
`fillContents_eq_ok` say when these steps succeed and which bytes they leave.
-/

namespace StageArchive

/-- The zero byte that makes an odd length even. -/
def padding (length : Nat) : Bytes :=
  if length % 2 = 1 then [0] else []

/-- A body with the zero byte that makes its length even. -/
def padded (body : Bytes) : Bytes :=
  body ++ padding body.length

/-- The bytes of a chunk with a body. -/
def chunkBytes (order : ByteOrder) (tag : Tag) (body : Bytes) : Bytes :=
  tag.bytes ++ order.encode (UInt32.ofNat (padded body).length) ++ padded body

/-- The bytes of a table of contents without its tag and size. -/
def contentsBytes (order : ByteOrder) (count : UInt32) (entries : List ContentsEntry) : Bytes :=
  order.encode count ++
    entries.flatMap fun entry => order.encode entry.label.toUInt32 ++ order.encode entry.offset

/-- Padding is nothing or one zero byte. -/
theorem padding_eq (length : Nat) : padding length = [] ∨ padding length = [0] := by
  unfold padding
  split
  · exact .inr rfl
  · exact .inl rfl

/-- Padding is at most one byte. -/
theorem length_padding_le (length : Nat) : (padding length).length ≤ 1 := by
  rcases padding_eq length with h | h <;> simp [h]

/-- A padded body has an even length. -/
theorem length_padded (body : Bytes) : (padded body).length = body.length + body.length % 2 := by
  rw [padded, List.length_append, padding]
  split
  · rename_i hodd
    rw [hodd]
    rfl
  · rename_i heven
    have hzero : body.length % 2 = 0 := by omega
    rw [hzero]
    rfl

/-- A body of even length needs no padding. -/
theorem padded_of_even {body : Bytes} (h : body.length % 2 = 0) : padded body = body := by
  rw [padded, padding, if_neg (by omega), List.append_nil]

/-- The zeros that are written for a table of contents need no padding. -/
theorem padded_zeros (count : UInt32) :
    padded (List.replicate (contentsLength count) 0) =
      List.replicate (contentsLength count) 0 := by
  refine padded_of_even ?_
  rw [List.length_replicate, contentsLength]
  omega

/-- A chunk is its padded body behind eight bytes. -/
theorem length_chunkBytes (order : ByteOrder) (tag : Tag) (body : Bytes) :
    (chunkBytes order tag body).length = 8 + (padded body).length := by
  simp only [chunkBytes, List.length_append, Tag.length_bytes, ByteOrder.length_encode]

/-- A table of contents has eight bytes for each entry behind four. -/
theorem length_contentsBytes (order : ByteOrder) (count : UInt32) (entries : List ContentsEntry) :
    (contentsBytes order count entries).length = 4 + entries.length * 8 := by
  have hentries : (entries.flatMap fun entry =>
      order.encode entry.label.toUInt32 ++ order.encode entry.offset).length =
        entries.length * 8 := by
    induction entries with
    | nil => rfl
    | cons entry entries ih =>
        rw [List.flatMap_cons, List.length_append, ih, List.length_append, ByteOrder.length_encode,
          ByteOrder.length_encode, List.length_cons]
        omega
  rw [contentsBytes, List.length_append, hentries, ByteOrder.length_encode]

/-- A table of contents with all its entries fills the room for it. -/
theorem length_contentsBytes_of_full (order : ByteOrder) {count : UInt32}
    {entries : List ContentsEntry} (hcount : entries.length = count.toNat) :
    (contentsBytes order count entries).length = contentsLength count := by
  rw [length_contentsBytes, hcount, contentsLength]

/-- A table of contents needs no padding. -/
theorem padded_contentsBytes (order : ByteOrder) (count : UInt32) (entries : List ContentsEntry) :
    padded (contentsBytes order count entries) = contentsBytes order count entries := by
  refine padded_of_even ?_
  rw [length_contentsBytes]
  omega

namespace Sink

/-- The sink with other data and its position at their end. -/
def withData (sink : Sink) (data : Bytes) : Sink :=
  { sink with data := data, position := data.length }

/-- The sink with bytes added at the end. -/
def append (sink : Sink) (bytes : Bytes) : Sink :=
  sink.withData (sink.data ++ bytes)

/-- A sink whose position is the end of its data. -/
def AtEnd (sink : Sink) : Prop :=
  sink.position = sink.data.length

/-- The sink with another table of contents reserved, or with none. -/
def withReserved (sink : Sink) (reserved : Option Reservation) : Sink :=
  { sink with reserved := reserved }

/-- A sink to which bytes were added is at its end. -/
theorem atEnd_append (sink : Sink) (bytes : Bytes) : (sink.append bytes).AtEnd := rfl

/-- Adding bytes twice is adding them together. -/
@[simp]
theorem append_append (sink : Sink) (first second : Bytes) :
    (sink.append first).append second = sink.append (first ++ second) := by
  show sink.withData (sink.data ++ first ++ second) = sink.withData (sink.data ++ (first ++ second))
  rw [List.append_assoc]

/-- Adding nothing at the end changes nothing. -/
theorem append_nil {sink : Sink} (h : sink.AtEnd) : sink.append [] = sink := by
  obtain ⟨data, position, order, reserved⟩ := sink
  obtain rfl : position = data.length := h
  simp only [append, withData, List.append_nil]

/-- Bytes are added whatever table of contents is reserved. -/
@[simp]
theorem append_withReserved_append (sink : Sink) (reserved : Option Reservation)
    (first second : Bytes) :
    ((sink.append first).withReserved reserved).append second =
      (sink.append (first ++ second)).withReserved reserved := by
  rw [← append_append]
  rfl

/-- What is written takes the place of as many bytes behind the position. -/
theorem put_of_split {sink : Sink} {front back : Bytes} (bytes : Bytes)
    (hdata : sink.data = front ++ back) (hposition : sink.position = front.length) :
    sink.put bytes =
      { sink with
        data := front ++ bytes ++ back.drop bytes.length
        position := front.length + bytes.length } := by
  rw [put, hdata, hposition, List.take_left, ← List.drop_drop, List.drop_left]

/-- What is written at the end is added there. -/
theorem put_of_atEnd {sink : Sink} (h : sink.AtEnd) (bytes : Bytes) :
    sink.put bytes = sink.append bytes := by
  rw [put_of_split bytes (List.append_nil sink.data).symm h, List.drop_nil, List.append_nil,
    ← List.length_append]
  rfl

/-- What is written over bytes of the same length takes their place. -/
theorem put_of_data_eq {sink : Sink} {front hole rest : Bytes} (bytes : Bytes)
    (hdata : sink.data = front ++ hole ++ rest) (hposition : sink.position = front.length)
    (hlength : bytes.length = hole.length) :
    sink.put bytes =
      { sink with data := front ++ bytes ++ rest, position := front.length + bytes.length } := by
  rw [List.append_assoc] at hdata
  rw [put_of_split bytes hdata hposition, hlength, List.drop_left]

/-- Bytes are put over as many others in the data, after which writing goes on at the end. -/
theorem put_back_of_data_eq {sink : Sink} {front hole rest : Bytes} (bytes : Bytes)
    (hend : sink.AtEnd) (hdata : sink.data = front ++ hole ++ rest)
    (hlength : bytes.length = hole.length) :
    { ({ sink with position := front.length } : Sink).put bytes with position := sink.position } =
      sink.withData (front ++ bytes ++ rest) := by
  have hposition : sink.position = (front ++ bytes ++ rest).length := by
    rw [hend, hdata]
    simp only [List.length_append, hlength]
  rw [@put_of_data_eq { sink with position := front.length } front hole rest bytes hdata rfl hlength,
    withData, ← hposition]

/-- Writing twice is writing everything at once. -/
theorem put_put {sink : Sink} (h : sink.position ≤ sink.data.length) (first second : Bytes) :
    (sink.put first).put second = sink.put (first ++ second) := by
  have hdata := (List.take_append_drop sink.position sink.data).symm
  have hposition : sink.position = (sink.data.take sink.position).length := by
    rw [List.length_take, Nat.min_eq_left h]
  rw [put_of_split first hdata hposition, put_of_split (first ++ second) hdata hposition,
    put_of_split second rfl List.length_append.symm]
  simp only [List.drop_drop, List.length_append, List.append_assoc, Nat.add_assoc]

/-- Writing does not leave the data. -/
theorem position_put_le {sink : Sink} (h : sink.position ≤ sink.data.length) (bytes : Bytes) :
    (sink.put bytes).position ≤ (sink.put bytes).data.length := by
  show sink.position + bytes.length ≤ (_ ++ _ ++ _ : Bytes).length
  simp only [List.length_append, List.length_take]
  omega

end Sink

namespace Writing

/-- The position is an offset when it fits in a word. -/
theorem offset_eq_ok {sink after : Sink} {value : UInt32} :
    offset sink = (.ok value, after) ↔
      sink.position < 2 ^ 32 ∧ value = UInt32.ofNat sink.position ∧ after = sink := by
  show (ite (sink.position < 2 ^ 32) _ _ : Writing UInt32) sink = _ ↔ _
  by_cases hfits : sink.position < 2 ^ 32
  · rw [if_pos hfits]
    constructor
    · intro h
      cases h
      exact ⟨hfits, rfl, rfl⟩
    · intro hparts
      obtain ⟨-, rfl, rfl⟩ := hparts
      rfl
  · rw [if_neg hfits]
    constructor
    · intro h
      cases h
    · intro hparts
      obtain ⟨h, -⟩ := hparts
      exact absurd h hfits

/-- Opening a chunk writes its tag and zeros for its size. -/
theorem openChunk_eq {sink : Sink} (h : sink.AtEnd) (name : Tag) :
    openChunk name sink =
      (.ok ⟨name, sink.data.length⟩, sink.append (name.bytes ++ [0, 0, 0, 0])) := by
  have hopen : openChunk name sink =
      (.ok ⟨name, sink.position⟩, (sink.put name.bytes).put [0, 0, 0, 0]) := rfl
  rw [hopen, Sink.put_of_atEnd h, Sink.put_of_atEnd (Sink.atEnd_append _ _), h,
    Sink.append_append]

/-- Bytes are written at the end. -/
theorem bytes_eq {sink : Sink} (h : sink.AtEnd) (content : Bytes) :
    bytes content sink = (.ok (), sink.append content) :=
  congrArg (Prod.mk _) (Sink.put_of_atEnd h content)

/-- A tag is written at the end. -/
theorem tag_eq {sink : Sink} (h : sink.AtEnd) (name : Tag) :
    tag name sink = (.ok (), sink.append name.bytes) :=
  bytes_eq h name.bytes

/-- A word is written at the end. -/
theorem word_eq {sink : Sink} (h : sink.AtEnd) (value : UInt32) :
    word value sink = (.ok (), sink.append (sink.order.encode value)) :=
  congrArg (Prod.mk _) (Sink.put_of_atEnd h (sink.order.encode value))

/-- Opening a form that declares no byte order at the end writes its tags and a size of zero. -/
theorem openForm_eq {sink : Sink} (h : sink.AtEnd) (name : Tag) {subtype : Tag}
    (hsubtype : subtype.order? = none) :
    openForm name subtype sink =
      (.ok ⟨name, sink.data.length⟩,
        sink.append (name.bytes ++ [0, 0, 0, 0] ++ subtype.bytes)) := by
  have hopen : openForm name subtype sink = (do
      let mark ← openChunk name
      tag subtype
      return mark : Writing ChunkMark) sink := by
    rw [openForm, hsubtype]
  rw [hopen, run_bind_of_eq (openChunk_eq h name),
    run_bind_of_eq (tag_eq (Sink.atEnd_append _ _) _), Sink.append_append]
  rfl

/-- Closing a chunk with a body of odd length is closing it behind another zero byte. -/
theorem close_of_odd {mark : ChunkMark} {sink : Sink}
    (h : (sink.position - (mark.offset + Chunk.headerLength)) % 2 = 1)
    (hstart : mark.offset + Chunk.headerLength ≤ sink.position) :
    close mark sink = close mark (sink.put [0]) := by
  have heven : ¬ ((sink.put [0]).position - (mark.offset + Chunk.headerLength)) % 2 = 1 := by
    show ¬ (sink.position + 1 - (mark.offset + Chunk.headerLength)) % 2 = 1
    omega
  unfold close
  show (ite ((sink.position - (mark.offset + Chunk.headerLength)) % 2 = 1) _ _ : Writing UInt32)
      sink =
    (ite (((sink.put [0]).position - (mark.offset + Chunk.headerLength)) % 2 = 1) _ _ :
      Writing UInt32) (sink.put [0])
  rw [if_pos h, if_neg heven]
  rfl

/-- Closing a chunk with a body of even length puts in its size, if that fits in a word. -/
theorem close_of_even {mark : ChunkMark} {sink : Sink}
    (h : ¬ (sink.position - (mark.offset + Chunk.headerLength)) % 2 = 1) :
    close mark sink =
      let size := sink.position - (mark.offset + Chunk.headerLength)
      if 2 ^ 32 ≤ size then (.error (.sizeOverflow size), sink)
      else
        (.ok (UInt32.ofNat size),
          { ({ sink with position := mark.offset + 4 } : Sink).put
              (sink.order.encode (UInt32.ofNat size)) with position := sink.position }) := by
  unfold close
  show (ite ((sink.position - (mark.offset + Chunk.headerLength)) % 2 = 1) _ _ : Writing UInt32)
      sink = _
  rw [if_neg h]
  show (ite (2 ^ 32 ≤ sink.position - (mark.offset + Chunk.headerLength)) _ _ : Writing UInt32)
      sink = _
  split <;> rename_i hsize
  · exact (if_pos hsize).symm
  · exact (if_neg hsize).symm

/-- A chunk whose body has an even length is closed when its size fits in a word, and its size is
all that changes. -/
theorem close_even_eq_ok {mark : ChunkMark} {sink after : Sink} {front hole body : Bytes}
    {size : UInt32} (hdata : sink.data = front ++ hole ++ body)
    (hfront : front.length = mark.offset + 4) (hhole : hole.length = 4) (hend : sink.AtEnd)
    (heven : body.length % 2 = 0) :
    close mark sink = (.ok size, after) ↔
      body.length < 2 ^ 32 ∧ size = UInt32.ofNat body.length ∧
        after = sink.withData (front ++ sink.order.encode (UInt32.ofNat body.length) ++ body) := by
  have hlength : sink.data.length = mark.offset + Chunk.headerLength + body.length := by
    rw [hdata, List.length_append, List.length_append, hfront, hhole]
    rfl
  have hsize : sink.position - (mark.offset + Chunk.headerLength) = body.length := by
    rw [hend, hlength]
    omega
  have hafter := Sink.put_back_of_data_eq (sink.order.encode (UInt32.ofNat body.length)) hend hdata
    (by rw [ByteOrder.length_encode, hhole])
  rw [hfront] at hafter
  rw [close_of_even (by rw [hsize, heven]; decide)]
  simp only [hsize, hafter]
  by_cases hfits : 2 ^ 32 ≤ body.length
  · rw [if_pos hfits]
    constructor
    · intro h
      cases h
    · intro hparts
      obtain ⟨hless, -⟩ := hparts
      omega
  · rw [if_neg hfits]
    constructor
    · intro h
      cases h
      exact ⟨Nat.lt_of_not_le hfits, rfl, rfl⟩
    · intro hparts
      obtain ⟨-, rfl, rfl⟩ := hparts
      rfl

/-- A chunk is closed when the size of its padded body fits in a word; its body is padded and its
size put in. -/
theorem close_eq_ok {mark : ChunkMark} {sink after : Sink} {front hole body : Bytes}
    {size : UInt32} (hdata : sink.data = front ++ hole ++ body)
    (hfront : front.length = mark.offset + 4) (hhole : hole.length = 4) (hend : sink.AtEnd) :
    close mark sink = (.ok size, after) ↔
      (padded body).length < 2 ^ 32 ∧ size = UInt32.ofNat (padded body).length ∧
        after = sink.withData
          (front ++ sink.order.encode (UInt32.ofNat (padded body).length) ++ padded body) := by
  have hlength : sink.position = mark.offset + Chunk.headerLength + body.length := by
    rw [hend, hdata, List.length_append, List.length_append, hfront, hhole]
    rfl
  by_cases hodd : body.length % 2 = 1
  · have hpadded : padded body = body ++ [0] := by
      rw [padded, padding, if_pos hodd]
    have hput : sink.put [0] = sink.append [0] := Sink.put_of_atEnd hend [0]
    rw [close_of_odd (by rw [hlength]; omega) (by omega), hput, hpadded]
    exact close_even_eq_ok (by rw [← List.append_assoc, ← hdata]; rfl) hfront hhole
      (Sink.atEnd_append sink [0]) (by rw [List.length_append]; simp; omega)
  · rw [padded_of_even (by omega)]
    exact close_even_eq_ok hdata hfront hhole hend (by omega)

/-- A chunk that was opened at the end is closed behind its body when its size fits in a word. -/
theorem close_append_eq_ok {sink after : Sink} {name : Tag} {body : Bytes} {size : UInt32} :
    close ⟨name, sink.data.length⟩ (sink.append (name.bytes ++ [0, 0, 0, 0] ++ body)) =
        (.ok size, after) ↔
      (padded body).length < 2 ^ 32 ∧ size = UInt32.ofNat (padded body).length ∧
        after = sink.append (chunkBytes sink.order name body) := by
  have hdata : (sink.append (name.bytes ++ [0, 0, 0, 0] ++ body)).data =
      (sink.data ++ name.bytes) ++ [0, 0, 0, 0] ++ body := by
    simp only [Sink.append, Sink.withData, List.append_assoc]
  have hafter : (sink.append (name.bytes ++ [0, 0, 0, 0] ++ body)).withData
      (sink.data ++ name.bytes ++ sink.order.encode (UInt32.ofNat (padded body).length) ++
        padded body) = sink.append (chunkBytes sink.order name body) := by
    simp only [Sink.append, Sink.withData, chunkBytes, List.append_assoc]
  rw [← hafter]
  exact close_eq_ok hdata (List.length_append ..) rfl (Sink.atEnd_append _ _)

/-- A whole chunk is opened at the end, given its body and closed. -/
theorem chunk_eq {sink : Sink} (hend : sink.AtEnd) (name : Tag) (body : Bytes) :
    chunk name body sink = close ⟨name, sink.data.length⟩
      (sink.append (name.bytes ++ [0, 0, 0, 0] ++ body)) := by
  rw [chunk, run_bind_of_eq (openChunk_eq hend name),
    run_bind_of_eq (bytes_eq (Sink.atEnd_append _ _) body), Sink.append_append]

/-- A whole chunk is written at the end, when its size fits in a word. -/
theorem chunk_eq_ok {sink after : Sink} {name : Tag} {body : Bytes} {size : UInt32}
    (hend : sink.AtEnd) :
    chunk name body sink = (.ok size, after) ↔
      (padded body).length < 2 ^ 32 ∧ size = UInt32.ofNat (padded body).length ∧
        after = sink.append (chunkBytes sink.order name body) := by
  rw [chunk_eq hend]
  exact close_append_eq_ok

/-- A table of contents is reserved when none is and its size fits in a word; zeros are written for
it at the end. -/
theorem reserveContents_eq_ok {sink after : Sink} {count : UInt32} (hend : sink.AtEnd) :
    reserveContents count sink = (.ok (), after) ↔
      (sink.reserved = none ∧ contentsLength count < 2 ^ 32) ∧
        after = (sink.append (chunkBytes sink.order .contents
          (List.replicate (contentsLength count) 0))).withReserved
            (some ⟨sink.data.length + Chunk.headerLength, count, []⟩) := by
  have hpadded := padded_zeros count
  have hzeros : (List.replicate (contentsLength count) (0 : UInt8)).length =
      contentsLength count := List.length_replicate
  obtain ⟨data, position, order, reserved⟩ := sink
  obtain rfl : position = data.length := hend
  have hend : Sink.AtEnd ⟨data, data.length, order, none⟩ := rfl
  cases reserved with
  | some reservation =>
      constructor
      · intro h
        cases h
      · intro hparts
        obtain ⟨⟨h, -⟩, -⟩ := hparts
        cases h
  | none =>
      have hrun : reserveContents count ⟨data, data.length, order, none⟩ =
          (chunk .contents (List.replicate (contentsLength count) 0) >>= fun _ =>
            (modify (·.withReserved (some ⟨data.length + Chunk.headerLength, count, []⟩)) :
              Writing Unit)) ⟨data, data.length, order, none⟩ := rfl
      rw [hrun, run_bind_eq_ok]
      constructor
      · intro hparts
        obtain ⟨size, middle, hchunk, h⟩ := hparts
        obtain ⟨hfits, -, rfl⟩ := (chunk_eq_ok hend).mp hchunk
        rw [hpadded, hzeros] at hfits
        cases h
        exact ⟨⟨rfl, hfits⟩, rfl⟩
      · intro hparts
        obtain ⟨⟨-, hfits⟩, rfl⟩ := hparts
        rw [← hzeros, ← hpadded] at hfits
        exact ⟨_, _, (chunk_eq_ok hend).mpr ⟨hfits, rfl, rfl⟩, rfl⟩

/-- An entry is added to a table of contents that is reserved and not full. -/
theorem addEntry_eq_ok {sink after : Sink} {entry : ContentsEntry} {reservation : Reservation}
    (hreserved : sink.reserved = some reservation) :
    addEntry entry sink = (.ok (), after) ↔
      reservation.entries.length ≠ reservation.count.toNat ∧
        after = sink.withReserved
          (some { reservation with entries := reservation.entries ++ [entry] }) := by
  obtain ⟨data, position, order, reserved⟩ := sink
  obtain rfl : reserved = some reservation := hreserved
  show (ite (reservation.entries.length = reservation.count.toNat) _ _ : Writing Unit) _ = _ ↔ _
  by_cases hfull : reservation.entries.length = reservation.count.toNat
  · rw [if_pos hfull]
    constructor
    · intro h
      cases h
    · intro hparts
      obtain ⟨hspace, -⟩ := hparts
      exact absurd hfull hspace
  · rw [if_neg hfull]
    constructor
    · intro h
      cases h
      exact ⟨hfull, rfl⟩
    · intro hparts
      obtain ⟨-, rfl⟩ := hparts
      rfl

/-- The entries of a table of contents are written at the position. -/
theorem forM_entries_eq {sink : Sink} (entries : List ContentsEntry)
    (h : sink.position ≤ sink.data.length) :
    (entries.forM fun entry => do
        signedWord entry.label
        word entry.offset : Writing Unit) sink =
      (.ok (), sink.put (entries.flatMap fun entry =>
        sink.order.encode entry.label.toUInt32 ++ sink.order.encode entry.offset)) := by
  -- The sink moves on with every entry, so the statement is about any sink.
  induction entries generalizing sink with
  | nil =>
      have hnil : sink.put [] = sink := by
        simp only [Sink.put, List.append_nil, List.length_nil, Nat.add_zero,
          List.take_append_drop]
      exact congrArg (Prod.mk _) hnil.symm
  | cons entry entries ih =>
      have hfirst := Sink.position_put_le h (sink.order.encode entry.label.toUInt32)
      have hsecond := Sink.position_put_le hfirst (sink.order.encode entry.offset)
      have hrest := ih hsecond
      show (entries.forM _ : Writing Unit)
        ((sink.put (sink.order.encode entry.label.toUInt32)).put
          (sink.order.encode entry.offset)) = _
      rw [hrest, Sink.put_put hfirst, Sink.put_put h, List.flatMap_cons, List.append_assoc]
      rfl

/-- A table of contents that has all its entries is written over the room for it, wherever the position
is, and the position stays. -/
theorem fillContents_of_full {sink : Sink} {body : Nat} {count : UInt32}
    {entries : List ContentsEntry} (hreserved : sink.reserved = some ⟨body, count, entries⟩)
    (hcount : entries.length = count.toNat) (hbody : body ≤ sink.data.length) :
    fillContents sink = (.ok (), { ({ sink with position := body } : Sink).put
      (contentsBytes sink.order count entries) with
        position := sink.position
        reserved := none }) := by
  obtain ⟨data, position, order, reserved⟩ := sink
  obtain rfl : reserved = _ := hreserved
  let start : Sink := ⟨data, body, order, none⟩
  have hstart : start.position ≤ start.data.length := hbody
  have hentries := forM_entries_eq entries (Sink.position_put_le hstart (order.encode count))
  rw [Sink.put_put hstart] at hentries
  show (ite (entries.length ≠ count.toNat) _ _ : Writing Unit) _ = _
  rw [if_neg (not_not_intro hcount)]
  refine run_bind_eq_ok.mpr ⟨position, { start with position := position }, rfl, ?_⟩
  refine run_bind_eq_ok.mpr ⟨(), start, rfl, ?_⟩
  refine run_bind_eq_ok.mpr ⟨(), start.put (order.encode count), rfl, ?_⟩
  exact run_bind_eq_ok.mpr ⟨(), _, hentries, rfl⟩

/-- A full table of contents takes the place of the zeros that were written for it. -/
theorem fillContents_eq_ok {sink after : Sink} {count : UInt32} {entries : List ContentsEntry}
    {front hole rest : Bytes} (hend : sink.AtEnd)
    (hreserved : sink.reserved = some ⟨front.length, count, entries⟩)
    (hdata : sink.data = front ++ hole ++ rest) (hhole : hole.length = contentsLength count) :
    fillContents sink = (.ok (), after) ↔
      entries.length = count.toNat ∧
        after = (sink.withData
          (front ++ contentsBytes sink.order count entries ++ rest)).withReserved none := by
  by_cases hcount : entries.length = count.toNat
  · have hlength : (contentsBytes sink.order count entries).length = hole.length :=
      (length_contentsBytes_of_full sink.order hcount).trans hhole.symm
    have hbody : front.length ≤ sink.data.length := by
      rw [hdata, List.append_assoc, List.length_append]
      exact Nat.le_add_right ..
    have hafter := congrArg (Sink.withReserved · none) (Sink.put_back_of_data_eq
      (contentsBytes sink.order count entries) hend hdata hlength)
    rw [fillContents_of_full hreserved hcount hbody, ← hafter]
    constructor
    · intro h
      cases h
      exact ⟨hcount, rfl⟩
    · intro hparts
      obtain ⟨-, rfl⟩ := hparts
      rfl
  · obtain ⟨data, position, order, reserved⟩ := sink
    obtain rfl : reserved = _ := hreserved
    show (ite (entries.length ≠ count.toNat) _ _ : Writing Unit) _ = _ ↔ _
    rw [if_pos hcount]
    constructor
    · intro h
      cases h
    · intro hparts
      obtain ⟨h, -⟩ := hparts
      exact absurd h hcount

end Writing

end StageArchive
