import StageArchive.Proofs.Chunk.Sink
import StageArchive.Proofs.Container.Steps
/-!
# The bytes of a container

What becomes of each entry determines the whole file: the offsets in the table of contents are those
of the chunks behind it, whose sizes are known before anything is written. `makeInSteps_eq_ok` says that
this file is what results from preparing and writing the entries one by one, and when it does.
-/

namespace StageArchive

namespace PreparedChunk

/-- The bytes that are written for a chunk. -/
def bytes (order : ByteOrder) : PreparedChunk → Bytes
  | .whole content => content
  | .body tag payload => chunkBytes order tag payload

/-- Whether the size of a chunk fits in a word, if it is not in the bytes already. -/
def Fits : PreparedChunk → Prop
  | .whole _ => True
  | .body _ payload => (padded payload).length < 2 ^ 32

end PreparedChunk

namespace Disposition

/-- The bytes that are written for an entry, none if it is left out. -/
def bytes (order : ByteOrder) : Disposition → Bytes
  | .written chunk => chunk.bytes order
  | .skipped _ => []

/-- The offset that is entered for an entry when its chunk starts there; zero if it is left out. -/
def offsetAt (start : Nat) : Disposition → UInt32
  | .written _ => UInt32.ofNat start
  | .skipped _ => 0

/-- Whether an entry can be written at an offset, which like the size must fit in a word. -/
def FitsAt (start : Nat) : Disposition → Prop
  | .written chunk => start < 2 ^ 32 ∧ chunk.Fits
  | .skipped _ => True

/-- The offsets of entries, the first of which starts there. -/
def offsetsFrom (order : ByteOrder) (start : Nat) : List Disposition → List UInt32
  | [] => []
  | disposition :: others =>
    disposition.offsetAt start ::
      offsetsFrom order (start + (disposition.bytes order).length) others

/-- Whether entries can be written when the first starts at an offset. -/
def FitFrom (order : ByteOrder) (start : Nat) : List Disposition → Prop
  | [] => True
  | disposition :: others =>
    disposition.FitsAt start ∧
      FitFrom order (start + (disposition.bytes order).length) others

/-- Every entry has an offset. -/
@[simp]
theorem length_offsetsFrom (order : ByteOrder) (start : Nat) (dispositions : List Disposition) :
    (offsetsFrom order start dispositions).length = dispositions.length := by
  induction dispositions generalizing start with
  | nil => rfl
  | cons disposition others ih => exact congrArg (· + 1) (ih _)

/-- The offsets behind some entries start where their bytes end. -/
theorem offsetsFrom_append (order : ByteOrder) (start : Nat) (front back : List Disposition) :
    offsetsFrom order start (front ++ back) =
      offsetsFrom order start front ++
        offsetsFrom order (start + (front.flatMap (·.bytes order)).length) back := by
  induction front generalizing start with
  | nil => rfl
  | cons disposition others ih =>
      rw [List.cons_append, offsetsFrom, offsetsFrom, ih, List.flatMap_cons, List.length_append,
        Nat.add_assoc, List.cons_append]

/-- Entries that can be written can be written behind those before them. -/
theorem FitFrom.of_append {order : ByteOrder} {start : Nat} {front back : List Disposition}
    (h : FitFrom order start (front ++ back)) :
    FitFrom order (start + (front.flatMap (·.bytes order)).length) back := by
  induction front generalizing start with
  | nil => exact h
  | cons disposition others ih =>
      have hothers := ih h.2
      rwa [Nat.add_assoc, ← List.length_append, ← List.flatMap_cons] at hothers

/-- Entries that can be written can be written without those behind them. -/
theorem FitFrom.of_prefix {order : ByteOrder} {start : Nat} {front all : List Disposition}
    (h : FitFrom order start all) (hfront : front <+: all) : FitFrom order start front := by
  obtain ⟨back, rfl⟩ := hfront
  induction front generalizing start with
  | nil => trivial
  | cons disposition others ih => exact ⟨h.1, ih h.2⟩

end Disposition

/-- An entry of a table of contents for a chunk at an offset. -/
def ContentsEntry.at (offset : UInt32) : ContentsEntry :=
  ⟨0, offset⟩

namespace Assembler

open Disposition (offsetsFrom FitFrom)

/-- Writing a chunk adds its bytes when its offset and size fit in a word, and then enters it. -/
theorem writeChunk_run {sink after : Sink} {chunk : PreparedChunk} {offset : UInt32}
    (hend : sink.AtEnd) :
    writeChunk chunk sink = (.ok offset, after) ↔
      sink.data.length < 2 ^ 32 ∧ chunk.Fits ∧
        (do
          Writing.addEntry (.at (UInt32.ofNat sink.data.length))
          return UInt32.ofNat sink.data.length : Writing UInt32)
          (sink.append (chunk.bytes sink.order)) = (.ok offset, after) := by
  rw [writeChunk, run_bind_eq_ok]
  -- A whole chunk is put as it is; a body gets its header and padding from `chunk`.
  cases chunk with
  | whole content =>
      rw [PreparedChunk.bytes, ← Sink.put_of_atEnd hend]
      constructor
      · intro h
        obtain ⟨_, _, hoffset, h⟩ := h
        obtain ⟨hstart, rfl, rfl⟩ := Writing.offset_eq_ok.mp hoffset
        rw [hend] at hstart h
        exact ⟨hstart, trivial, h⟩
      · intro h
        obtain ⟨hstart, -, h⟩ := h
        rw [← hend] at hstart h
        exact ⟨_, _, Writing.offset_eq_ok.mpr ⟨hstart, rfl, rfl⟩, h⟩
  | body tag payload =>
      constructor
      · intro h
        obtain ⟨_, _, hoffset, h⟩ := h
        obtain ⟨hstart, rfl, rfl⟩ := Writing.offset_eq_ok.mp hoffset
        obtain ⟨size, middle, hchunk, h⟩ := run_bind_eq_ok.mp h
        obtain ⟨hfits, rfl, rfl⟩ := (Writing.chunk_eq_ok hend).mp hchunk
        rw [hend] at hstart h
        exact ⟨hstart, hfits, h⟩
      · intro h
        obtain ⟨hstart, hfits, h⟩ := h
        rw [← hend] at hstart h
        exact ⟨_, _, Writing.offset_eq_ok.mpr ⟨hstart, rfl, rfl⟩, run_bind_eq_ok.mpr
          ⟨_, _, (Writing.chunk_eq_ok hend).mpr ⟨hfits, rfl, rfl⟩, h⟩⟩

/-- A chunk is written and entered when its offset and size fit in a word and the table of contents
is not full. -/
theorem writeChunk_eq_ok {sink after : Sink} {chunk : PreparedChunk} {reservation : Reservation}
    {offset : UInt32} (hend : sink.AtEnd) (hreserved : sink.reserved = some reservation) :
    writeChunk chunk sink = (.ok offset, after) ↔
      sink.data.length < 2 ^ 32 ∧ chunk.Fits ∧
        reservation.entries.length ≠ reservation.count.toNat ∧
        offset = UInt32.ofNat sink.data.length ∧
        after = (sink.append (chunk.bytes sink.order)).withReserved
          (some { reservation with entries := reservation.entries ++ [.at offset] }) := by
  have hentry (after : Sink) :
      Writing.addEntry (.at (UInt32.ofNat sink.data.length))
          (sink.append (chunk.bytes sink.order)) = (.ok (), after) ↔ _ :=
    Writing.addEntry_eq_ok hreserved
  rw [writeChunk_run hend, run_bind_eq_ok]
  constructor
  · intro h
    obtain ⟨hstart, hfits, _, middle, hadd, h⟩ := h
    cases h
    obtain ⟨hspace, rfl⟩ := (hentry _).mp hadd
    exact ⟨hstart, hfits, hspace, rfl, rfl⟩
  · intro h
    obtain ⟨hstart, hfits, hspace, rfl, rfl⟩ := h
    exact ⟨hstart, hfits, (), _, (hentry _).mpr ⟨hspace, rfl⟩, rfl⟩

/-- A table of contents with the offsets of entries, the first of which starts there. -/
def entered (reservation : Reservation) (order : ByteOrder) (start : Nat)
    (dispositions : List Disposition) : Reservation :=
  { reservation with
    entries := reservation.entries ++ (offsetsFrom order start dispositions).map .at }

/-- The file with the bytes of entries at its end, when their offsets are in the table of contents. -/
def withEntries (sink : Sink) (reservation : Reservation) (dispositions : List Disposition) : Sink :=
  (sink.append (dispositions.flatMap (·.bytes sink.order))).withReserved
    (some (entered reservation sink.order sink.data.length dispositions))

/-- There are as many further entries as were entered. -/
theorem length_entered (reservation : Reservation) (order : ByteOrder) (start : Nat)
    (dispositions : List Disposition) :
    (entered reservation order start dispositions).entries.length =
      reservation.entries.length + dispositions.length := by
  rw [entered, List.length_append, List.length_map, Disposition.length_offsetsFrom]

/-- A file with no further entries is the file. -/
theorem withEntries_nil {sink : Sink} {reservation : Reservation} (hend : sink.AtEnd)
    (hreserved : sink.reserved = some reservation) : withEntries sink reservation [] = sink := by
  rw [withEntries, List.flatMap_nil, Sink.append_nil hend, entered, offsetsFrom, List.map_nil,
    List.append_nil, ← hreserved]
  rfl

/-- Further entries lie behind the first ones, and behind them in the table of contents. -/
theorem withEntries_append (sink : Sink) (reservation : Reservation)
    (front back : List Disposition) :
    withEntries sink reservation (front ++ back) =
      withEntries (withEntries sink reservation front)
        (entered reservation sink.order sink.data.length front) back := by
  have hlength : (withEntries sink reservation front).data.length =
      sink.data.length + (front.flatMap (·.bytes sink.order)).length := List.length_append
  have horder : (withEntries sink reservation front).order = sink.order := rfl
  rw [withEntries, withEntries, hlength, horder, withEntries, Sink.append_withReserved_append,
    List.flatMap_append, entered, Disposition.offsetsFrom_append, List.map_append,
    ← List.append_assoc]
  rfl

/-- An entry is written, or only entered if it is left out, when it fits and the table of contents is not
full. -/
theorem writeDisposition_eq_ok {sink after : Sink} {disposition : Disposition}
    {reservation : Reservation} {offset : UInt32} (hend : sink.AtEnd)
    (hreserved : sink.reserved = some reservation) :
    writeDisposition disposition sink = (.ok offset, after) ↔
      disposition.FitsAt sink.data.length ∧
        reservation.entries.length ≠ reservation.count.toNat ∧
        offset = disposition.offsetAt sink.data.length ∧
        after = withEntries sink reservation [disposition] := by
  rw [withEntries, List.flatMap_singleton]
  cases disposition with
  | written chunk =>
      rw [writeDisposition, writeChunk_eq_ok hend hreserved]
      constructor
      · rintro ⟨hstart, hfits, hfull, rfl, rfl⟩
        exact ⟨⟨hstart, hfits⟩, hfull, rfl, rfl⟩
      · rintro ⟨⟨hstart, hfits⟩, hfull, rfl, rfl⟩
        exact ⟨hstart, hfits, hfull, rfl, rfl⟩
  | skipped reason =>
      have hsame : sink.append [] = sink := Sink.append_nil hend
      rw [writeDisposition, run_bind_eq_ok, Disposition.bytes, hsame]
      constructor
      · intro hparts
        obtain ⟨_, middle, hadd, h⟩ := hparts
        cases h
        obtain ⟨hfull, rfl⟩ := (Writing.addEntry_eq_ok hreserved).mp hadd
        exact ⟨trivial, hfull, rfl, rfl⟩
      · intro hparts
        obtain ⟨-, hfull, rfl, rfl⟩ := hparts
        exact ⟨(), _, (Writing.addEntry_eq_ok hreserved).mpr ⟨hfull, rfl⟩, rfl⟩

section Entries

variable {assembler : Assembler} {look : Path → Except FileFault Bytes} {path : Path}

/-- The first of some entries is prepared and written, and then the others. -/
theorem writeEntries_cons_eq_ok {entry : ChunkEntry} {entries : List ChunkEntry} {sink after : Sink}
    {reservation : Reservation} {made : List (ChunkEntry × Disposition × UInt32)}
    (hend : sink.AtEnd) (hreserved : sink.reserved = some reservation) :
    assembler.writeEntries look path (entry :: entries) sink = .ok (made, after) ↔
      ∃ disposition others,
        assembler.dispose (assembler.outcome look entry) = .ok disposition ∧
        (disposition.FitsAt sink.data.length ∧
          reservation.entries.length ≠ reservation.count.toNat) ∧
        made = (entry, disposition, disposition.offsetAt sink.data.length) :: others ∧
        assembler.writeEntries look path entries (withEntries sink reservation [disposition]) =
          .ok (others, after) := by
  rw [writeEntries]
  constructor
  · intro h
    obtain ⟨disposition, hdispose, h⟩ := bind_eq_ok.mp h
    obtain ⟨⟨offset, middle⟩, hwrite, h⟩ := bind_eq_ok.mp h
    obtain ⟨hfits, hfull, rfl, rfl⟩ :=
      (writeDisposition_eq_ok hend hreserved).mp (writing_eq_ok.mp hwrite)
    obtain ⟨⟨others, last⟩, hothers, h⟩ := bind_eq_ok.mp h
    cases h
    exact ⟨disposition, others, hdispose, ⟨hfits, hfull⟩, rfl, hothers⟩
  · rintro ⟨disposition, others, hdispose, ⟨hfits, hfull⟩, rfl, hothers⟩
    exact bind_eq_ok.mpr ⟨disposition, hdispose, bind_eq_ok.mpr ⟨(_, _),
      writing_eq_ok.mpr ((writeDisposition_eq_ok hend hreserved).mpr ⟨hfits, hfull, rfl, rfl⟩),
      bind_eq_ok.mpr ⟨(others, after), hothers, rfl⟩⟩⟩

/-- Entries are written when something becomes of each, they fit and the table of contents has room for
each. -/
theorem writeEntries_eq_ok {entries : List ChunkEntry} {sink after : Sink}
    {reservation : Reservation} {made : List (ChunkEntry × Disposition × UInt32)}
    (hend : sink.AtEnd) (hreserved : sink.reserved = some reservation)
    (hroom : reservation.entries.length ≤ reservation.count.toNat) :
    assembler.writeEntries look path entries sink = .ok (made, after) ↔
      ∃ dispositions, assembler.dispositions look entries = .ok dispositions ∧
        (FitFrom sink.order sink.data.length dispositions ∧
          reservation.entries.length + dispositions.length ≤ reservation.count.toNat) ∧
        made = entries.zip
          (dispositions.zip (offsetsFrom sink.order sink.data.length dispositions)) ∧
        after = withEntries sink reservation dispositions := by
  -- The sink and the table of contents both grow with every entry.
  induction entries generalizing sink after reservation made with
  | nil =>
      constructor
      · intro h
        cases h
        exact ⟨[], rfl, ⟨trivial, hroom⟩, rfl, (withEntries_nil hend hreserved).symm⟩
      · rintro ⟨dispositions, hdispositions, -, rfl, rfl⟩
        obtain rfl : [] = dispositions := Except.ok.inj hdispositions
        rw [withEntries_nil hend hreserved]
        rfl
  | cons entry entries ih =>
      -- The others are written behind the first, as on a longer file.
      have hothers (disposition : Disposition) (others : List (ChunkEntry × Disposition × UInt32))
          (hfull : reservation.entries.length ≠ reservation.count.toNat) :
          assembler.writeEntries look path entries (withEntries sink reservation [disposition]) =
              .ok (others, after) ↔
            ∃ dispositions, assembler.dispositions look entries = .ok dispositions ∧
              (FitFrom sink.order (sink.data.length + (disposition.bytes sink.order).length)
                  dispositions ∧
                reservation.entries.length + (dispositions.length + 1) ≤
                  reservation.count.toNat) ∧
              others = entries.zip (dispositions.zip (offsetsFrom sink.order
                (sink.data.length + (disposition.bytes sink.order).length) dispositions)) ∧
              after = withEntries sink reservation (disposition :: dispositions) := by
        let first := entered reservation sink.order sink.data.length [disposition]
        have hfirst : first.entries.length = reservation.entries.length + 1 := length_entered ..
        have hroom : first.entries.length ≤ reservation.count.toNat := by
          rw [hfirst]
          exact Nat.lt_of_le_of_ne hroom hfull
        have hlength : (withEntries sink reservation [disposition]).data.length =
            sink.data.length + (disposition.bytes sink.order).length := by
          rw [withEntries, List.flatMap_singleton]
          exact List.length_append
        refine (@ih (withEntries sink reservation [disposition]) after first others
          (Sink.atEnd_append sink _) rfl hroom).trans ?_
        rw [hfirst, hlength]
        refine exists_congr fun dispositions => and_congr_right fun _ => ?_
        have hafter := withEntries_append sink reservation [disposition] dispositions
        rw [List.singleton_append] at hafter
        rw [hafter, Nat.add_assoc, Nat.add_comm 1]
        rfl
      rw [writeEntries_cons_eq_ok hend hreserved]
      simp only [dispositions_cons, bind_eq_ok]
      constructor
      · rintro ⟨disposition, others, hdispose, ⟨hfits, hfull⟩, rfl, hrest⟩
        obtain ⟨dispositions, hdispositions, ⟨hfit, hcount⟩, rfl, rfl⟩ :=
          (hothers disposition others hfull).mp hrest
        exact ⟨disposition :: dispositions, ⟨disposition, hdispose, dispositions, hdispositions, rfl⟩,
          ⟨⟨hfits, hfit⟩, hcount⟩, rfl, rfl⟩
      · rintro ⟨_, ⟨disposition, hdispose, dispositions, hdispositions, h⟩, ⟨hfit, hcount⟩, rfl,
          hafter⟩
        cases h
        have hfull : reservation.entries.length ≠ reservation.count.toNat := by
          rw [List.length_cons] at hcount
          omega
        exact ⟨disposition, _, hdispose, ⟨hfit.1, hfull⟩, rfl,
          (hothers disposition _ hfull).mpr
            ⟨dispositions, hdispositions, ⟨hfit.2, hcount⟩, rfl, hafter⟩⟩

end Entries

/-- What the root form of a container holds before the body of its table of contents. -/
def opening (order : ByteOrder) (timestamp count : UInt32) : Bytes :=
  (Tag.ofOrder order).bytes ++
    chunkBytes order .header ((FileHeader.ofTimestamp timestamp).encode order) ++
    Tag.contents.bytes ++ order.encode (UInt32.ofNat (contentsLength count))

/-- The body of a container's root form, with the given entries in the table of contents. -/
def inside (order : ByteOrder) (timestamp count : UInt32) (contents : List ContentsEntry)
    (dispositions : List Disposition) : Bytes :=
  opening order timestamp count ++ contentsBytes order count contents ++
    dispositions.flatMap (·.bytes order)

/-- The offset of the first chunk behind a table of contents with a number of entries. -/
def contentStart (count : Nat) : Nat :=
  40 + count * 8

/-- The offsets of a container's entries. -/
def imageOffsets (order : ByteOrder) (dispositions : List Disposition) : List UInt32 :=
  offsetsFrom order (contentStart dispositions.length) dispositions

/-- The body of a container's root form. -/
def imageBody (order : ByteOrder) (timestamp : UInt32) (dispositions : List Disposition) : Bytes :=
  inside order timestamp (UInt32.ofNat dispositions.length)
    ((imageOffsets order dispositions).map .at) dispositions

/-- The bytes of a container. -/
def image (order : ByteOrder) (timestamp : UInt32) (dispositions : List Disposition) : Bytes :=
  chunkBytes order .form (imageBody order timestamp dispositions)

/-- Whether a container can be written: all offsets and sizes in it fit in a word. -/
structure ImageFits (order : ByteOrder) (timestamp : UInt32) (dispositions : List Disposition) :
    Prop where
  count : dispositions.length < 2 ^ 32
  contents : contentsLength (UInt32.ofNat dispositions.length) < 2 ^ 32
  chunks : FitFrom order (contentStart dispositions.length) dispositions
  size : (image order timestamp dispositions).length < 8 + 2 ^ 32

/-- A container is closed: the table of contents takes the place of its zeros and the size of the root
form is put in. -/
theorem closeContainer_eq_ok {sink after : Sink} {inner hole rest : Bytes} {count : UInt32}
    {entries : List ContentsEntry} {result : Bytes × UInt32} (hend : sink.AtEnd)
    (hreserved : sink.reserved = some ⟨Chunk.headerLength + inner.length, count, entries⟩)
    (hdata : sink.data = Tag.form.bytes ++ [0, 0, 0, 0] ++ inner ++ hole ++ rest)
    (hhole : hole.length = contentsLength count) :
    closeContainer ⟨.form, 0⟩ sink = (.ok result, after) ↔
        entries.length = count.toNat ∧
          (padded (inner ++ contentsBytes sink.order count entries ++ rest)).length < 2 ^ 32 ∧
          result = (chunkBytes sink.order .form
              (inner ++ contentsBytes sink.order count entries ++ rest),
            UInt32.ofNat
              (padded (inner ++ contentsBytes sink.order count entries ++ rest)).length) ∧
          after = (sink.withData (chunkBytes sink.order .form
            (inner ++ contentsBytes sink.order count entries ++ rest))).withReserved none := by
  have hfill (after : Sink) : Writing.fillContents sink = (.ok (), after) ↔ _ :=
    @Writing.fillContents_eq_ok sink after count entries
      (Tag.form.bytes ++ [0, 0, 0, 0] ++ inner) hole rest hend
      (by rw [hreserved, List.length_append]; rfl) hdata hhole
  let filled := (sink.withData (Tag.form.bytes ++ [0, 0, 0, 0] ++ inner ++
    contentsBytes sink.order count entries ++ rest)).withReserved none
  have hclose (size : UInt32) (after : Sink) :
      Writing.close ⟨.form, 0⟩ filled = (.ok size, after) ↔ _ :=
    @Writing.close_eq_ok ⟨.form, 0⟩ filled after Tag.form.bytes [0, 0, 0, 0]
      (inner ++ contentsBytes sink.order count entries ++ rest) size
      (by simp only [filled, Sink.withData, Sink.withReserved, List.append_assoc]) rfl rfl rfl
  rw [closeContainer, run_bind_eq_ok_of_unit hfill, run_bind_eq_ok_of hclose]
  refine and_congr_right fun _ => and_congr_right fun _ => ?_
  constructor
  · intro h
    cases h
    exact ⟨rfl, rfl⟩
  · intro hparts
    obtain ⟨rfl, rfl⟩ := hparts
    rfl

/-- The body of a header has eight bytes. -/
theorem length_encodeHeader (order : ByteOrder) (timestamp : UInt32) :
    ((FileHeader.ofTimestamp timestamp).encode order).length = 8 := by
  rw [FileHeader.encode, List.length_append, ByteOrder.length_encode, ByteOrder.length_encode]

/-- The table of contents begins at an offset that depends on nothing. -/
theorem length_opening (order : ByteOrder) (timestamp count : UInt32) :
    (opening order timestamp count).length = 28 := by
  simp only [opening, List.length_append, length_chunkBytes, length_padded, length_encodeHeader,
    Tag.length_bytes, ByteOrder.length_encode]

/-- What is written of a container before its entries, with zeros for the size of the root form and
for the table of contents. -/
def draft (order : ByteOrder) (timestamp count : UInt32) : Bytes :=
  Tag.form.bytes ++ [0, 0, 0, 0] ++ opening order timestamp count ++
    List.replicate (contentsLength count) 0

/-- The entries begin behind what is written before them. -/
theorem length_draft (order : ByteOrder) (timestamp count : UInt32) :
    (draft order timestamp count).length = contentStart count.toNat := by
  simp only [draft, List.length_append, length_opening, List.length_replicate, Tag.length_bytes,
    List.length_cons, List.length_nil, contentsLength, contentStart]
  omega

/-- The header is written as a chunk of eight bytes. -/
theorem chunk_header_eq {order : ByteOrder} {timestamp : UInt32} (before : Bytes) :
    Writing.chunk .header ((FileHeader.ofTimestamp timestamp).encode order)
        ((Sink.start order).append before) =
      (.ok 8, (Sink.start order).append
        (before ++ chunkBytes order .header ((FileHeader.ofTimestamp timestamp).encode order))) := by
  have hsize : (padded ((FileHeader.ofTimestamp timestamp).encode order)).length = 8 := by
    rw [length_padded, length_encodeHeader]
  rw [Writing.chunk_eq_ok (Sink.atEnd_append _ _), hsize, Sink.append_append]
  exact ⟨by decide, rfl, rfl⟩

/-- The table of contents is reserved behind the header. -/
theorem reserve_eq_ok {order : ByteOrder} {timestamp count : UInt32} {after : Sink} :
    Writing.reserveContents count ((Sink.start order).append
        (Tag.form.bytes ++ [0, 0, 0, 0] ++ (Tag.ofOrder order).bytes ++
          chunkBytes order .header ((FileHeader.ofTimestamp timestamp).encode order))) =
        (.ok (), after) ↔
      contentsLength count < 2 ^ 32 ∧
        after = ((Sink.start order).append (draft order timestamp count)).withReserved
          (some ⟨36, count, []⟩) := by
  rw [Writing.reserveContents_eq_ok (Sink.atEnd_append _ _)]
  have hbytes : Tag.form.bytes ++ [0, 0, 0, 0] ++ (Tag.ofOrder order).bytes ++
        chunkBytes order .header ((FileHeader.ofTimestamp timestamp).encode order) ++
        chunkBytes order .contents (List.replicate (contentsLength count) 0) =
      draft order timestamp count := by
    rw [draft, opening]
    generalize chunkBytes order .header _ = header
    simp only [chunkBytes, padded_zeros, List.length_replicate, List.append_assoc]
  have hlength : ((Sink.start order).append (Tag.form.bytes ++ [0, 0, 0, 0] ++
      (Tag.ofOrder order).bytes ++
      chunkBytes order .header ((FileHeader.ofTimestamp timestamp).encode order))).data.length =
        28 := by
    have hopening := length_opening order timestamp count
    simp only [opening, List.length_append, Tag.length_bytes, ByteOrder.length_encode] at hopening
    simp only [Sink.append, Sink.withData, Sink.start, List.length_append, List.length_nil,
      List.length_cons, Tag.length_bytes]
    omega
  rw [Sink.append_append, hlength, ← hbytes]
  constructor
  · intro hparts
    obtain ⟨⟨-, hfits⟩, h⟩ := hparts
    exact ⟨hfits, h⟩
  · intro hparts
    obtain ⟨hfits, h⟩ := hparts
    exact ⟨⟨rfl, hfits⟩, h⟩

/-- A container is opened when its table of contents fits. -/
theorem openContainer_eq_ok {order : ByteOrder} {timestamp count : UInt32} {root : ChunkMark}
    {after : Sink} :
    openContainer order timestamp count (.start order) = (.ok root, after) ↔
      contentsLength count < 2 ^ 32 ∧ root = ⟨.form, 0⟩ ∧
        after = ((Sink.start order).append (draft order timestamp count)).withReserved
          (some ⟨36, count, []⟩) := by
  have hopen : Writing.openForm .form (.ofOrder order) (.start order) =
      (.ok ⟨.form, 0⟩, (Sink.start order).append
        (Tag.form.bytes ++ [0, 0, 0, 0] ++ (Tag.ofOrder order).bytes)) := by
    cases order <;> rfl
  rw [openContainer, run_bind_of_eq hopen, run_bind_of_eq (chunk_header_eq _)]
  constructor
  · intro h
    obtain ⟨_, middle, hreserve, h⟩ := run_bind_eq_ok.mp h
    cases h
    obtain ⟨hfits, rfl⟩ := reserve_eq_ok.mp hreserve
    exact ⟨hfits, rfl, rfl⟩
  · rintro ⟨hfits, rfl, rfl⟩
    exact run_bind_eq_ok.mpr ⟨(), _, reserve_eq_ok.mpr ⟨hfits, rfl⟩, rfl⟩

/-- The file in which room for the table of contents is reserved. -/
def openedSink (order : ByteOrder) (timestamp count : UInt32) : Sink :=
  ((Sink.start order).append (draft order timestamp count)).withReserved (some ⟨36, count, []⟩)

/-- The file behind the entries, the offsets of which are not yet in the table of contents. -/
def filledSink (order : ByteOrder) (timestamp count : UInt32) (dispositions : List Disposition) :
    Sink :=
  ((Sink.start order).append
      (draft order timestamp count ++ dispositions.flatMap (·.bytes order))).withReserved
    (some ⟨36, count, (offsetsFrom order (contentStart count.toNat) dispositions).map .at⟩)

/-- A container is its padded body behind eight bytes. -/
theorem length_image (order : ByteOrder) (timestamp : UInt32) (dispositions : List Disposition) :
    (image order timestamp dispositions).length =
      8 + (padded (imageBody order timestamp dispositions)).length :=
  length_chunkBytes order .form _

/-- The size of a container that fits is a word. -/
theorem ImageFits.toNat_size {order : ByteOrder} {timestamp : UInt32}
    {dispositions : List Disposition} (h : ImageFits order timestamp dispositions) :
    (UInt32.ofNat (padded (imageBody order timestamp dispositions)).length).toNat + 8 =
      (image order timestamp dispositions).length := by
  have hsize := h.size
  rw [length_image] at hsize ⊢
  rw [UInt32.toNat_ofNat_of_lt' (Nat.lt_of_add_lt_add_left hsize), Nat.add_comm]

section Container

variable {assembler : Assembler} {look : Path → Except FileFault Bytes} {clock : UInt32}
  {path : Path}

/-- A container is opened, its entries are written, and it is closed. -/
theorem makeInSteps_eq_ok_iff_steps {result : Bytes × AssemblyReport} :
    assembler.makeInSteps clock path look = .ok result ↔
      contentsLength (UInt32.ofNat assembler.entries.length) < 2 ^ 32 ∧
        ∃ made filled, assembler.writeEntries look path assembler.entries
            (openedSink assembler.config.byteOrder (assembler.config.headerTimestamp clock)
              (UInt32.ofNat assembler.entries.length)) = .ok (made, filled) ∧
          ∃ bytes size closed, closeContainer ⟨.form, 0⟩ filled = (.ok (bytes, size), closed) ∧
            result = (bytes, report path size made) := by
  constructor
  · intro h
    obtain ⟨⟨root, opened⟩, hopen, h⟩ := bind_eq_ok.mp h
    obtain ⟨hcontents, rfl, rfl⟩ := openContainer_eq_ok.mp (writing_eq_ok.mp hopen)
    obtain ⟨⟨made, filled⟩, hwrite, h⟩ := bind_eq_ok.mp h
    obtain ⟨⟨⟨bytes, size⟩, closed⟩, hclose, h⟩ := bind_eq_ok.mp h
    cases h
    exact ⟨hcontents, made, filled, hwrite, bytes, size, closed, writing_eq_ok.mp hclose, rfl⟩
  · rintro ⟨hcontents, made, filled, hwrite, bytes, size, closed, hclose, rfl⟩
    exact bind_eq_ok.mpr ⟨_, writing_eq_ok.mpr (openContainer_eq_ok.mpr ⟨hcontents, rfl, rfl⟩),
      bind_eq_ok.mpr ⟨_, hwrite, bind_eq_ok.mpr ⟨_, writing_eq_ok.mpr hclose, rfl⟩⟩⟩

/-- The entries are written behind the reserved table of contents when they fit. -/
theorem writeEntries_openedSink {order : ByteOrder} {timestamp count : UInt32}
    {entries : List ChunkEntry} {made : List (ChunkEntry × Disposition × UInt32)} {after : Sink} :
    assembler.writeEntries look path entries (openedSink order timestamp count) =
        .ok (made, after) ↔
      ∃ dispositions, assembler.dispositions look entries = .ok dispositions ∧
        (FitFrom order (contentStart count.toNat) dispositions ∧
          dispositions.length ≤ count.toNat) ∧
        made = entries.zip
          (dispositions.zip (offsetsFrom order (contentStart count.toNat) dispositions)) ∧
        after = filledSink order timestamp count dispositions := by
  have hwrite := @writeEntries_eq_ok assembler look path entries (openedSink order timestamp count)
    after ⟨36, count, []⟩ made (Sink.atEnd_append _ _) rfl (Nat.zero_le _)
  have hstart : (openedSink order timestamp count).data.length = contentStart count.toNat :=
    length_draft order timestamp count
  have horder : (openedSink order timestamp count).order = order := rfl
  simp only [withEntries, hstart, horder, List.length_nil, Nat.zero_add] at hwrite
  simp only [openedSink, Sink.append_withReserved_append] at hwrite
  exact hwrite

/-- A container whose entries are written is closed when its size fits and the table of contents is
full. -/
theorem closeContainer_filledSink {order : ByteOrder} {timestamp count : UInt32}
    {dispositions : List Disposition} {result : Bytes × UInt32} {after : Sink} :
    closeContainer ⟨.form, 0⟩ (filledSink order timestamp count dispositions) =
        (.ok result, after) ↔
      dispositions.length = count.toNat ∧
        (padded (inside order timestamp count
          ((offsetsFrom order (contentStart count.toNat) dispositions).map .at)
          dispositions)).length < 2 ^ 32 ∧
        result = (chunkBytes order .form (inside order timestamp count
            ((offsetsFrom order (contentStart count.toNat) dispositions).map .at) dispositions),
          UInt32.ofNat (padded (inside order timestamp count
            ((offsetsFrom order (contentStart count.toNat) dispositions).map .at)
            dispositions)).length) ∧
        after = (Sink.start order).append (chunkBytes order .form (inside order timestamp count
          ((offsetsFrom order (contentStart count.toNat) dispositions).map .at) dispositions)) := by
  have hclose := @closeContainer_eq_ok (filledSink order timestamp count dispositions) after
    (opening order timestamp count) (List.replicate (contentsLength count) 0)
    (dispositions.flatMap (·.bytes order)) count
    ((offsetsFrom order (contentStart count.toNat) dispositions).map .at) result
    (Sink.atEnd_append _ _) (by rw [length_opening]; rfl) rfl List.length_replicate
  rw [List.length_map, Disposition.length_offsetsFrom] at hclose
  exact hclose

/-- The bytes of a container and the report on it, from what becomes of each entry, when all offsets and
sizes in it fit in a word. -/
def Builds (assembler : Assembler) (clock : UInt32) (output : Path)
    (dispositions : List Disposition) (bytes : Bytes) (report : AssemblyReport) : Prop :=
  ImageFits assembler.config.byteOrder (assembler.config.headerTimestamp clock) dispositions ∧
    bytes = image assembler.config.byteOrder (assembler.config.headerTimestamp clock)
      dispositions ∧
    report = {
      output := output
      size := bytes.length
      written := writtenChunks (assembler.entries.zip
        (dispositions.zip (imageOffsets assembler.config.byteOrder dispositions)))
      skipped := skippedChunks (assembler.entries.zip dispositions) }

/-- The report on a container that fits gives its length. -/
theorem ImageFits.report_eq {order : ByteOrder} {timestamp : UInt32} {entries : List ChunkEntry}
    {dispositions : List Disposition} (h : ImageFits order timestamp dispositions) :
    report path (UInt32.ofNat (padded (imageBody order timestamp dispositions)).length)
        (entries.zip (dispositions.zip (imageOffsets order dispositions))) = {
      output := path
      size := (image order timestamp dispositions).length
      written := writtenChunks (entries.zip (dispositions.zip (imageOffsets order dispositions)))
      skipped := skippedChunks (entries.zip dispositions) } := by
  have hoffsets : (imageOffsets order dispositions).length = dispositions.length :=
    Disposition.length_offsetsFrom ..
  have hfirst : (dispositions.zip (imageOffsets order dispositions)).map Prod.fst = dispositions :=
    List.map_fst_zip (Nat.le_of_eq hoffsets.symm)
  have hpairs : entries.zip ((dispositions.zip (imageOffsets order dispositions)).map Prod.fst) =
      (entries.zip (dispositions.zip (imageOffsets order dispositions))).map (Prod.map id Prod.fst) :=
    List.zip_map_right
  rw [hfirst] at hpairs
  rw [hpairs, ← h.toNat_size]
  rfl

/-- A container is made when something becomes of every entry and the container that results from that
can be built. -/
theorem makeInSteps_eq_ok {bytes : Bytes} {made : AssemblyReport} :
    assembler.makeInSteps clock path look = .ok (bytes, made) ↔
      ∃ dispositions, assembler.Disposes look assembler.entries dispositions ∧
        assembler.Builds clock path dispositions bytes made := by
  rw [makeInSteps_eq_ok_iff_steps]
  constructor
  · rintro ⟨hcontents, _, _, hwrite, _, _, _, hclose, h⟩
    obtain ⟨dispositions, hdispositions, ⟨hchunks, -⟩, rfl, rfl⟩ := writeEntries_openedSink.mp hwrite
    obtain ⟨hcount, hsize, hresult, -⟩ := closeContainer_filledSink.mp hclose
    have hdisposes := dispositions_eq_ok.mp hdispositions
    -- The table of contents is full, so the number of entries is the word that counts them.
    rw [← hdisposes.length_eq] at hcontents hcount hchunks hsize hresult h
    rw [← hcount] at hchunks hsize hresult h
    cases hresult
    cases h
    have hfits : ImageFits assembler.config.byteOrder (assembler.config.headerTimestamp clock)
        dispositions := by
      refine ⟨hcount ▸ UInt32.toNat_lt _, hcontents, hchunks, ?_⟩
      rw [length_image]
      exact Nat.add_lt_add_left hsize 8
    exact ⟨dispositions, hdisposes, hfits, rfl, hfits.report_eq⟩
  · rintro ⟨dispositions, hdisposes, hfits, rfl, rfl⟩
    have hcount : dispositions.length = (UInt32.ofNat dispositions.length).toNat :=
      (UInt32.toNat_ofNat_of_lt' hfits.count).symm
    have hsize := hfits.size
    rw [length_image] at hsize
    rw [← hfits.report_eq, ← hdisposes.length_eq]
    have hwrite := (@writeEntries_openedSink assembler look path assembler.config.byteOrder
      (assembler.config.headerTimestamp clock) (UInt32.ofNat dispositions.length)
      assembler.entries _ _).mpr ⟨dispositions, dispositions_eq_ok.mpr hdisposes,
        ⟨hcount ▸ hfits.chunks, Nat.le_of_eq hcount⟩, rfl, rfl⟩
    have hclose := (@closeContainer_filledSink assembler.config.byteOrder
      (assembler.config.headerTimestamp clock) (UInt32.ofNat dispositions.length) dispositions
      _ _).mpr ⟨hcount, hcount ▸ Nat.lt_of_add_lt_add_left hsize, rfl, rfl⟩
    rw [← hcount] at hwrite hclose
    exact ⟨hfits.contents, _, _, hwrite, _, _, _, hclose, rfl⟩

end Container

/-- Entries can be written when their bytes end at an offset that fits in a word. -/
theorem fitFrom_of_length {order : ByteOrder} {start : Nat} {dispositions : List Disposition}
    (h : start + (dispositions.flatMap (·.bytes order)).length < 2 ^ 32) :
    FitFrom order start dispositions := by
  induction dispositions generalizing start with
  | nil => trivial
  | cons disposition others ih =>
      rw [List.flatMap_cons, List.length_append] at h
      have hfirst : disposition.FitsAt start := by
        cases disposition with
        | skipped reason => trivial
        | written chunk =>
            refine ⟨by omega, ?_⟩
            cases chunk with
            | whole content => trivial
            | body tag payload =>
                have hlength := length_chunkBytes order tag payload
                have hbytes : Disposition.bytes order (.written (.body tag payload)) =
                    chunkBytes order tag payload := rfl
                rw [hbytes] at h
                show (padded payload).length < 2 ^ 32
                omega
      exact ⟨hfirst, ih (by omega)⟩

/-- The body of a root form has a part of fixed length, a part for each entry of the table of contents
and the bytes of the entries. -/
theorem length_imageBody (order : ByteOrder) (timestamp : UInt32)
    (dispositions : List Disposition) :
    (imageBody order timestamp dispositions).length =
      28 + (4 + dispositions.length * 8) + (dispositions.flatMap (·.bytes order)).length := by
  rw [imageBody, inside, List.length_append, List.length_append, length_opening,
    length_contentsBytes, List.length_map, imageOffsets, Disposition.length_offsetsFrom]

/-- A container can be written when it has fewer bytes than a word can count. -/
theorem ImageFits.of_length {order : ByteOrder} {timestamp : UInt32}
    {dispositions : List Disposition} (h : (image order timestamp dispositions).length < 2 ^ 32) :
    ImageFits order timestamp dispositions := by
  have hbody := length_image order timestamp dispositions
  have hpadded := length_padded (imageBody order timestamp dispositions)
  have hinside := length_imageBody order timestamp dispositions
  have hcount : dispositions.length < 2 ^ 32 := by omega
  refine ⟨hcount, ?_, ?_, by omega⟩
  · rw [contentsLength, UInt32.toNat_ofNat_of_lt' hcount]
    omega
  · refine fitFrom_of_length ?_
    rw [contentStart]
    omega

end Assembler

end StageArchive
