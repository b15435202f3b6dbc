import StageArchive.Proofs.Media
/-!
# One file in two byte orders

Words take four bytes in either order, so whatever is written to two files of different orders ends up
at the same offsets, and is refused in both or in neither. `Sink.Level` is what the two files share at
every moment; each step of writing keeps it and has one outcome. So a media list that can be written in
one order can be written in the other, and both files are read as that list.
-/

namespace StageArchive

/-- Two files being written that are as long as each other, at one position and with one reserved table
of contents. -/
structure Sink.Level (first second : Sink) : Prop where
  length_eq : second.data.length = first.data.length
  position_eq : second.position = first.position
  reserved_eq : second.reserved = first.reserved

namespace Sink

/-- Bytes of one length are written to both. -/
theorem Level.put {first second : Sink} (h : Level first second) {bytes others : Bytes}
    (hlength : others.length = bytes.length) : Level (first.put bytes) (second.put others) where
  length_eq := by
    simp only [Sink.put, List.length_append, List.length_take, List.length_drop, h.length_eq,
      h.position_eq, hlength]
  position_eq := by
    rw [Sink.put, Sink.put, h.position_eq, hlength]
  reserved_eq := h.reserved_eq

end Sink

namespace Writing

/-- The position is the same. -/
theorem respects_position : Respects Sink.Level position :=
  fun _ _ h => ⟨congrArg Except.ok h.position_eq, h⟩

/-- Both move to an offset. -/
theorem respects_seek (offset : Nat) : Respects Sink.Level (seek offset) :=
  fun _ _ h => ⟨rfl, h.length_eq, rfl, h.reserved_eq⟩

/-- Bytes are written to both. -/
theorem respects_bytes (content : Bytes) : Respects Sink.Level (bytes content) :=
  fun _ _ h => ⟨rfl, h.put rfl⟩

/-- A tag is written to both. -/
theorem respects_tag (name : Tag) : Respects Sink.Level (tag name) :=
  respects_bytes name.bytes

/-- A word is written to each in its own order. -/
theorem respects_word (value : UInt32) : Respects Sink.Level (word value) :=
  fun _ _ h => ⟨rfl, h.put ((ByteOrder.length_encode ..).trans (ByteOrder.length_encode ..).symm)⟩

/-- A chunk is opened in both. -/
theorem respects_openChunk (name : Tag) : Respects Sink.Level (openChunk name) :=
  respects_position.bind fun _ => (respects_tag name).bind fun _ =>
    (respects_bytes _).bind fun _ => .mk (.ok _)

/-- A form that declares no byte order is opened in both. -/
theorem respects_openForm (name : Tag) {subtype : Tag} (horder : subtype.order? = none) :
    Respects Sink.Level (openForm name subtype) := by
  unfold openForm
  rw [horder]
  exact (respects_openChunk name).bind fun _ => (respects_tag subtype).bind fun _ => .mk (.ok _)

/-- A chunk is closed in both with one size, or too long in both. -/
theorem respects_close (mark : ChunkMark) : Respects Sink.Level (close mark) := by
  have hsize : Respects Sink.Level (do
      let finish ← position
      let size := finish - (mark.offset + Chunk.headerLength)
      if 2 ^ 32 ≤ size then throw (.sizeOverflow size)
      seek (mark.offset + 4)
      word (UInt32.ofNat size)
      seek finish
      return UInt32.ofNat size : Writing UInt32) := by
    refine respects_position.bind fun finish => ?_
    dsimp only
    split
    · exact Respects.bind (.mk (.error _)) fun _ => (respects_seek _).bind fun _ =>
        (respects_word _).bind fun _ => (respects_seek _).bind fun _ => .mk (.ok _)
    · exact (respects_seek _).bind fun _ =>
        (respects_word _).bind fun _ => (respects_seek _).bind fun _ => .mk (.ok _)
  unfold close
  refine respects_position.bind fun position => ?_
  split
  · exact (respects_bytes [0]).bind fun _ => hsize
  · exact hsize

/-- Both are finished, or neither because of the table of contents. -/
theorem finish_matched {first second : Sink} (h : Sink.Level first second) :
    Matched (fun _ _ => True) (finish first).1 (finish second).1 := by
  obtain ⟨data, position, order, reserved⟩ := first
  obtain ⟨others, same, other, kept⟩ := second
  obtain rfl : kept = reserved := h.reserved_eq
  cases kept with
  | none => exact .ok trivial
  | some reservation => exact .error _

end Writing

namespace MediaList

/-- A reference is written to both, or too long for both. -/
theorem respects_writeReference (reference : MediaReference) :
    Respects Sink.Level (writeReference reference) := by
  have hreference : Respects Sink.Level (do
      let mark ← Writing.openChunk .reference
      Writing.word reference.flags
      Writing.tag reference.kind
      Writing.word (UInt32.ofNat reference.data.length)
      Writing.bytes reference.data
      let _ ← Writing.close mark : Writing Unit) :=
    (Writing.respects_openChunk _).bind fun mark => (Writing.respects_word _).bind fun _ =>
      (Writing.respects_tag _).bind fun _ => (Writing.respects_word _).bind fun _ =>
        (Writing.respects_bytes _).bind fun _ => (Writing.respects_close mark).bind fun _ =>
          .mk (.ok _)
  unfold writeReference
  split
  · exact Respects.bind (.mk (.error _)) fun _ => hreference
  · exact hreference

/-- A media list is written to both, or refused by both. -/
theorem respects_write (media : MediaList) : Respects Sink.Level media.write := by
  have hlist : Respects Sink.Level (do
      let list ← Writing.openForm .list .mediaList
      let info ← Writing.openChunk .info
      Writing.word media.flags
      Writing.word media.mediaType
      Writing.word (UInt32.ofNat media.references.length)
      let _ ← Writing.close info
      media.references.forM writeReference
      let _ ← Writing.close list : Writing Unit) :=
    (Writing.respects_openForm _ rfl).bind fun list => (Writing.respects_openChunk _).bind fun info =>
      (Writing.respects_word _).bind fun _ => (Writing.respects_word _).bind fun _ =>
        (Writing.respects_word _).bind fun _ => (Writing.respects_close info).bind fun _ =>
          (Respects.forM respects_writeReference).bind fun _ =>
            (Writing.respects_close list).bind fun _ => .mk (.ok _)
  unfold write
  split
  · exact Respects.bind (.mk (.error _)) fun _ => hlist
  · exact hlist

/-- Two files are read, each in its own order, as one media list. -/
def SameList (order other : ByteOrder) (bytes counterpart : Bytes) : Prop :=
  ∃ media, decode order bytes = .ok media ∧ decode other counterpart = .ok media

/-- A media list is refused in two orders for the same reason, or it is read back from both. -/
theorem encode_matched (media : MediaList) (order other : ByteOrder) :
    Matched (SameList order other) (media.encode order) (media.encode other) := by
  have hmatched : Matched (fun _ _ => True) (media.encode order) (media.encode other) := by
    obtain ⟨houtcome, hlevel⟩ := media.respects_write (.start order) (.start other) ⟨rfl, rfl, rfl⟩
    rcases hfirst : (media.write (.start order) : Except ChunkFault Unit × Sink) with ⟨outcome, after⟩
    rcases hsecond : (media.write (.start other) : Except ChunkFault Unit × Sink) with
      ⟨same, counterpart⟩
    rw [hfirst, hsecond] at houtcome hlevel
    obtain rfl : same = outcome := houtcome
    cases same with
    | error fault =>
        have herror (order : ByteOrder) {last : Sink}
            (h : media.write (.start order) = (.error fault, last)) :
            media.encode order = .error fault := congrArg Prod.fst (run_bind_of_error h)
        rw [herror order hfirst, herror other hsecond]
        exact .error fault
    | ok =>
        have hfinish (order : ByteOrder) {last : Sink}
            (h : media.write (.start order) = (.ok (), last)) :
            media.encode order = (Writing.finish last).1 := congrArg Prod.fst (run_bind_of_eq h)
        rw [hfinish order hfirst, hfinish other hsecond]
        exact Writing.finish_matched hlevel
  -- What each order wrote is read back in that order as the same list.
  generalize hbytes : media.encode order = bytes at hmatched ⊢
  generalize hothers : media.encode other = others at hmatched ⊢
  cases hmatched with
  | error fault => exact .error fault
  | ok _ => exact .ok ⟨media, decode_of_encode hbytes, decode_of_encode hothers⟩

end MediaList

end StageArchive
