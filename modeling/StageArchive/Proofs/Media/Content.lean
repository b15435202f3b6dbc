import Mathlib.Data.List.Forall2
import StageArchive.Proofs.Media
/-!
# What a media list leaves unread

A media list is read as far as its count of references says. `decode_accounts_iff` says which chunks
that are, and that they are all chunks of the form exactly when no header fits behind the last of them:
what lies there otherwise is copied into a container with the rest of the file, and nothing has looked
at it.
-/

namespace StageArchive

namespace Chunk

/-- Whether a chunk has a tag and content that begins with some bytes. -/
def Holds (data : Bytes) (name : Tag) (front : Bytes) (chunk : Chunk) : Prop :=
  chunk.tag = name ∧
    ∃ others, (data.drop chunk.content).take chunk.contentLength = front ++ others

/-- Bytes that lie at the front of the content of a chunk and are no longer than it. -/
theorem Holds.of_drop {data front : Bytes} {name : Tag} {chunk : Chunk} (hname : chunk.tag = name)
    (h : ∃ others, data.drop chunk.content = front ++ others)
    (hlength : front.length ≤ chunk.contentLength) : chunk.Holds data name front := by
  obtain ⟨others, h⟩ := h
  refine ⟨hname, others.take (chunk.contentLength - front.length), ?_⟩
  rw [h, List.take_append, List.take_of_length_le hlength]

end Chunk

namespace MediaList

/-- Whether a chunk holds a reference. -/
def HoldsReference (order : ByteOrder) (data : Bytes) (chunk : Chunk) (reference : MediaReference) :
    Prop :=
  chunk.Holds data .reference (referenceBody order reference)

/-- Whether the form at the front of a file holds the fixed fields of a list and a chunk for each of its
references, and no chunk else. -/
def IsAccountedFor (order : ByteOrder) (data : Bytes) (media : MediaList) : Prop :=
  ∃ list entered info references last,
    Reading.descendForm .list .mediaList (.start order data) = (.ok list, entered) ∧
      Reading.childrenFrom list { entered with position := list.content } =
        (.ok (info :: references), last) ∧
      info.tag = .info ∧ references.length = media.references.length ∧
      ∀ reference ∈ references, reference.tag = .reference

section Reading

variable {source after : Source} {list : Chunk}

/-- A chunk of a list that is entered is the next one. -/
theorem next?_of_child {name : Tag} {chunk : Chunk}
    (h : child list name source = (.ok chunk, after)) :
    Reading.next? list source = (.ok (some chunk), after) ∧ chunk.tag = name := by
  rw [child, run_bind_of_eq (Reading.run_position source)] at h
  obtain ⟨next, middle, hnext, h⟩ := run_bind_eq_ok.mp h
  cases next with
  | none => cases h
  | some found =>
      dsimp only at h
      split at h
      · rename_i htag
        cases h
        exact ⟨hnext, htag⟩
      · cases h

/-- A reference that is read is held by the next chunk. -/
theorem passes_of_readReference {reference : MediaReference}
    (h : readReference list source = (.ok reference, after)) :
    ∃ chunk, Reading.Passes list source [chunk] after ∧
      HoldsReference source.order source.data chunk reference := by
  obtain ⟨chunk, entered, hchild, h⟩ := run_bind_eq_ok.mp h
  obtain ⟨hnext, htag⟩ := next?_of_child hchild
  obtain rfl := Reading.after_of_next? hnext
  split at h
  · cases h
  · rename_i hlong
    obtain ⟨flags, afterFlags, hflags, h⟩ := run_bind_eq_ok.mp h
    obtain ⟨kind, afterKind, hkind, h⟩ := run_bind_eq_ok.mp h
    obtain ⟨size, afterSize, hsize, h⟩ := run_bind_eq_ok.mp h
    dsimp only at h
    split at h
    · cases h
    · rename_i hsizeFits
      obtain ⟨data, afterData, hdata, h⟩ := run_bind_eq_ok.mp h
      cases h
      -- The fields lie at the front of the content one behind another.
      obtain ⟨hrest, rfl⟩ := Reading.rest_of_word hflags
      obtain ⟨hrestFlags, rfl⟩ := Reading.rest_of_tag hkind
      obtain ⟨hrestKind, rfl⟩ := Reading.rest_of_word hsize
      obtain ⟨hrestSize, hlength, rfl⟩ := Reading.rest_of_bytes hdata
      rw [hrestFlags, hrestKind, hrestSize] at hrest
      have hcontent : ∃ others, source.data.drop chunk.content =
          referenceBody source.order ⟨flags, kind, data⟩ ++ others := by
        rw [referenceBody, hlength, UInt32.ofNat_toNat]
        simp only [List.append_assoc]
        exact ⟨_, hrest⟩
      refine ⟨chunk, .cons hnext (.nil _), .of_drop htag hcontent ?_⟩
      rw [length_referenceBody, hlength]
      simp only [referenceLength] at hlong hsizeFits
      omega

/-- References that are read are held by the next chunks. -/
theorem passes_of_readReferences {count : Nat} {references : List MediaReference}
    (h : readReferences list count source = (.ok references, after)) :
    references.length = count ∧ ∃ chunks, Reading.Passes list source chunks after ∧
      List.Forall₂ (HoldsReference source.order source.data) chunks references := by
  induction count generalizing source references with
  | zero =>
      cases h
      exact ⟨rfl, [], .nil _, .nil⟩
  | succ count ih =>
      obtain ⟨reference, middle, hfirst, h⟩ := run_bind_eq_ok.mp h
      obtain ⟨others, last, hothers, h⟩ := run_bind_eq_ok.mp h
      cases h
      obtain ⟨chunk, hpasses, hchunk⟩ := passes_of_readReference hfirst
      obtain ⟨hlength, chunks, hrest, hchunks⟩ := ih hothers
      rw [hpasses.keeps] at hchunks
      cases hpasses with
      | cons hnext hnone =>
          cases hnone
          exact ⟨congrArg Nat.succ hlength, chunk :: chunks, .cons hnext hrest, .cons hchunk hchunks⟩

/-- The fixed fields of a list that is read are held by the first chunk, and its references by the chunks
behind it. -/
theorem passes_of_read {media : MediaList} (h : read list source = (.ok media, after)) :
    ∃ info references,
      Reading.Passes list { source with position := list.content } (info :: references) after ∧
        info.Holds source.data .info (media.infoBody source.order) ∧
        List.Forall₂ (HoldsReference source.order source.data) references media.references := by
  obtain ⟨_, start, hseek, h⟩ := run_bind_eq_ok.mp h
  cases hseek
  obtain ⟨info, entered, hchild, h⟩ := run_bind_eq_ok.mp h
  obtain ⟨hnext, htag⟩ := next?_of_child hchild
  obtain rfl := Reading.after_of_next? hnext
  split at h
  · cases h
  · rename_i hlong
    obtain ⟨flags, afterFlags, hflags, h⟩ := run_bind_eq_ok.mp h
    obtain ⟨mediaType, afterType, htype, h⟩ := run_bind_eq_ok.mp h
    obtain ⟨count, afterCount, hcount, h⟩ := run_bind_eq_ok.mp h
    obtain ⟨_, behind, hascend, h⟩ := run_bind_eq_ok.mp h
    obtain ⟨references, last, hreferences, h⟩ := run_bind_eq_ok.mp h
    cases h
    obtain ⟨hrest, rfl⟩ := Reading.rest_of_word hflags
    obtain ⟨hrestFlags, rfl⟩ := Reading.rest_of_word htype
    obtain ⟨hrestType, rfl⟩ := Reading.rest_of_word hcount
    cases hascend
    obtain ⟨hlength, chunks, hpasses, hchunks⟩ := passes_of_readReferences hreferences
    rw [hrestFlags, hrestType] at hrest
    -- The count that was read is the number of references, so the three words are the info body.
    have hcontent : ∃ others, source.data.drop info.content =
        infoBody source.order ⟨flags, mediaType, references⟩ ++ others := by
      rw [infoBody, hlength, UInt32.ofNat_toNat]
      simp only [List.append_assoc]
      exact ⟨_, hrest⟩
    refine ⟨info, chunks, .cons hnext hpasses, .of_drop htag hcontent ?_, hchunks⟩
    rw [length_infoBody]
    exact Nat.le_of_not_lt hlong

end Reading

/-- A file is accounted for when its form ends behind the chunks of the list, or a little behind them. -/
theorem isAccountedFor_iff_of_passes {order : ByteOrder} {data : Bytes} {media : MediaList}
    {list info : Chunk} {entered last : Source} {references : List Chunk}
    (hform : Reading.descendForm .list .mediaList (.start order data) = (.ok list, entered))
    (hpasses : Reading.Passes list { entered with position := list.content } (info :: references) last)
    (hinfo : info.tag = .info) (hlength : references.length = media.references.length)
    (htags : ∀ reference ∈ references, reference.tag = .reference) :
    IsAccountedFor order data media ↔ list.finish < last.position + Chunk.headerLength := by
  constructor
  · rintro ⟨_, _, found, others, other, hformFound, hchildren, -, hothers, -⟩
    cases hformFound.symm.trans hform
    obtain ⟨hpassesFound, hend⟩ := Reading.childrenFrom_eq_ok.mp hchildren
    obtain ⟨-, rfl⟩ := hpasses.unique hpassesFound
      (congrArg Nat.succ (hothers.trans hlength.symm))
    exact hend
  · intro hend
    exact ⟨list, entered, info, references, last, hform,
      Reading.childrenFrom_eq_ok.mpr ⟨hpasses, hend⟩, hinfo, hlength, htags⟩

/-- A list that is read from a file is held by the first chunks of the form, one with the fixed fields and
one for each reference. These are all chunks of the form, and so nothing in the file is left out, exactly
when fewer bytes than a header has lie behind them. -/
theorem decode_accounts_iff {order : ByteOrder} {data : Bytes} {media : MediaList}
    (h : decode order data = .ok media) :
    ∃ list entered info references last,
      Reading.descendForm .list .mediaList (.start order data) = (.ok list, entered) ∧
        list.finish = data.length ∧
        Reading.Passes list { entered with position := list.content } (info :: references) last ∧
        info.Holds data .info (media.infoBody order) ∧
        List.Forall₂ (HoldsReference order data) references media.references ∧
        (IsAccountedFor order data media ↔
          data.length < last.position + Chunk.headerLength) := by
  obtain ⟨size, content, hdata, hsize⟩ := eq_head_of_decode h
  have hform := descendForm_of_data hdata
  have hfinish : Chunk.finish ⟨.list, some .mediaList, 0, size⟩ = data.length := by
    rw [← hsize, Chunk.finish, Chunk.body, Nat.zero_add]
    rfl
  rw [decode_of_data hdata] at h
  dsimp only at h
  rw [if_pos hfinish] at h
  obtain ⟨info, references, hpasses, hinfo, hreferences⟩ := passes_of_read (Prod.ext h rfl)
  refine ⟨_, _, info, references, _, hform, hfinish, hpasses, hinfo, hreferences, ?_⟩
  rw [← hfinish]
  exact isAccountedFor_iff_of_passes hform hpasses hinfo.1 hreferences.length_eq
    ((List.forall₂_and_left _ _).mp hreferences).1

/-- A big-endian file whose form holds a list and some bytes behind it. -/
def withSurplus (media : MediaList) (surplus : Bytes) : Bytes :=
  chunkBytes .big .list (media.inside .big ++ surplus)

/-- A list with one reference, to the path "a". -/
def shortMedia : MediaList :=
  ⟨0, 0, [⟨0, .ofChars 'T' 'E' 'X' 'R', [0x61, 0]⟩]⟩

/-- A file with six bytes behind the last reference. -/
def paddedFile : Bytes :=
  shortMedia.withSurplus (List.replicate 6 0xff)

/-- The six bytes are no chunk: the file is accounted for. -/
theorem decode_accounts_paddedFile :
    decode .big paddedFile = .ok shortMedia ∧ IsAccountedFor .big paddedFile shortMedia := by
  have hread : decode .big paddedFile = .ok shortMedia := by decide +kernel
  obtain ⟨list, entered, info, references, last, hform, -, hpasses, -, hreferences, haccounts⟩ :=
    decode_accounts_iff hread
  obtain ⟨rfl, rfl⟩ : list = ⟨.list, some .mediaList, 0, 52⟩ ∧ entered = ⟨paddedFile, 12, .big⟩ := by
    cases hform
    exact ⟨by decide +kernel, by decide +kernel⟩
  have hinfo : Reading.next? ⟨.list, some .mediaList, 0, 52⟩ ⟨paddedFile, 12, .big⟩ =
      (.ok (some ⟨.info, none, 12, 12⟩), ⟨paddedFile, 20, .big⟩) :=
    rfl
  have hreference : Reading.next? ⟨.list, some .mediaList, 0, 52⟩ ⟨paddedFile, 32, .big⟩ =
      (.ok (some ⟨.reference, none, 32, 14⟩), ⟨paddedFile, 40, .big⟩) :=
    rfl
  obtain ⟨-, rfl⟩ := (Reading.Passes.cons hinfo (.cons hreference (.nil _))).unique hpasses
    (congrArg Nat.succ hreferences.length_eq)
  exact ⟨hread, haccounts.mpr (by decide +kernel)⟩

/-- A file with an empty list whose form holds a reference nevertheless. -/
def uncountedFile : Bytes :=
  withSurplus ⟨0, 0, []⟩ (referenceChunks .big shortMedia.references)

/-- The file is read as an empty list, and the reference in it is left out. -/
theorem decode_leaves_reference :
    decode .big uncountedFile = .ok ⟨0, 0, []⟩ ∧
      ¬ IsAccountedFor .big uncountedFile ⟨0, 0, []⟩ := by
  have hform : Reading.descendForm .list .mediaList (.start .big uncountedFile) =
      (.ok ⟨.list, some .mediaList, 0, 46⟩, ⟨uncountedFile, 12, .big⟩) :=
    rfl
  have hinfo : Reading.next? ⟨.list, some .mediaList, 0, 46⟩ ⟨uncountedFile, 12, .big⟩ =
      (.ok (some ⟨.info, none, 12, 12⟩), ⟨uncountedFile, 20, .big⟩) :=
    rfl
  refine ⟨by decide +kernel, fun haccounts => ?_⟩
  have hend := (isAccountedFor_iff_of_passes hform (.cons hinfo (.nil _)) rfl rfl nofun).mp haccounts
  exact absurd hend (by decide +kernel)

end MediaList

end StageArchive
