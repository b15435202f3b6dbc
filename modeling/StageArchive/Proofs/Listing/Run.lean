import StageArchive.Proofs.Chunk.Inside
import StageArchive.Proofs.Listing.Guarded
/-!
# Runs of a listing

A listing enters one chunk after another, lists what is inside and leaves it again. A run says which
steps are taken, whose heads are read to their end on the way, and whether a step would reach outside of
its bytes. Whatever the sizes in a file declare, `exists_fileRun` finds a run: what is inside a chunk is
closer to the chunk's end than the chunk was to the end of the one around it. There is no other one, by
`FileRun.unique`. `Run.result_eq` says that no step of a run reaches outside, and `Run.confined` that the
heads that are read come one behind another, deeper ones further behind; so there are few of them, and they
are not deep. `chunks_inside` is the main statement.
-/

namespace StageArchive.Listing

/-- What is left to list. -/
inductive Piece where
  /-- A chunk that was entered. -/
  | whole (chunk : Chunk)
  /-- What comes in a form from the position on. -/
  | rest (form : Chunk)

/-- The heads that are read to their end in looking for the next chunk inside a form at a depth. -/
def sought (form : Chunk) (depth : Nat) (source : Source) : List Visit :=
  (Reading.headSought form source).map (Visit.mk (depth + 1))

/-- A run of a listing at a depth from a source on, with the heads that it reads and what comes of it.
Whatever comes of a chunk inside a form, the run goes on behind the chunk only when it was listed. -/
inductive Run (listing : Listing) :
    Nat → Source → Piece → List Visit → Guarded ListingFault (List String) → Prop
  | leaf {depth : Nat} {source : Source} {chunk : Chunk} (hform : chunk.tag.isForm = false) :
      Run listing depth source (.whole chunk) []
        ((listing.chunkLine depth chunk :: ·) <$> Guarded.leafLines listing (depth + 1) source chunk)
  | form {depth : Nat} {source : Source} {chunk : Chunk} {reads : List Visit}
      {result : Guarded ListingFault (List String)} (hform : chunk.tag.isForm = true)
      (hinside : Run listing depth { source with position := chunk.content } (.rest chunk) reads result) :
      Run listing depth source (.whole chunk) reads ((listing.chunkLine depth chunk :: ·) <$> result)
  | failed {depth : Nat} {source after : Source} {form : Chunk} {fault : ChunkFault}
      (hnext : Reading.next? form source = (.error fault, after)) :
      Run listing depth source (.rest form) (sought form depth source) (throw (.container fault))
  | done {depth : Nat} {source after : Source} {form : Chunk}
      (hnext : Reading.next? form source = (.ok none, after)) :
      Run listing depth source (.rest form) (sought form depth source) (pure [])
  | stopped {depth : Nat} {source after : Source} {form chunk : Chunk} {inside : List Visit}
      {result : Guarded ListingFault (List String)}
      (hnext : Reading.next? form source = (.ok (some chunk), after))
      (hchunk : Run listing (depth + 1) after (.whole chunk) inside result)
      (hresult : ∀ lines, result ≠ pure lines) :
      Run listing depth source (.rest form) (sought form depth source ++ inside) result
  | listed {depth : Nat} {source after : Source} {form chunk : Chunk} {inside behind : List Visit}
      {lines : List String} {result : Guarded ListingFault (List String)}
      (hnext : Reading.next? form source = (.ok (some chunk), after))
      (hchunk : Run listing (depth + 1) after (.whole chunk) inside (pure lines))
      (hbehind : Run listing depth { after with position := chunk.finish } (.rest form) behind result) :
      Run listing depth source (.rest form) (sought form depth source ++ (inside ++ behind))
        ((lines ++ ·) <$> result)

/-- How the container of a file is entered, by the file's first tag. -/
def entry? (first : Tag) : Option (Reading Chunk) :=
  if first = .form then some Reading.openRoot
  else if first = .list then some Reading.header
  else none

/-- The heads that are read to their end in entering the container of a file. -/
def entryHead (source : Source) : List Visit :=
  (Reading.headRead source).map (Visit.mk 0)

/-- A run of the listing of a file, with the heads that it reads and what comes of it. -/
inductive FileRun (listing : Listing) (order : ByteOrder) (data : Bytes) :
    List Visit → Guarded ListingFault String → Prop
  | refused (hentry : entry? ((Tag.ofBytes? data).getD .blank) = none) :
      FileRun listing order data [] (throw (.notAContainer ((Tag.ofBytes? data).getD .blank)))
  | failed {enter : Reading Chunk} {fault : ChunkFault} {after : Source}
      (hentry : entry? ((Tag.ofBytes? data).getD .blank) = some enter)
      (henter : enter (.start order data) = (.error fault, after)) :
      FileRun listing order data (entryHead (.start order data)) (throw (.container fault))
  | entered {enter : Reading Chunk} {root : Chunk} {after : Source} {inside : List Visit}
      {result : Guarded ListingFault (List String)}
      (hentry : entry? ((Tag.ofBytes? data).getD .blank) = some enter)
      (henter : enter (.start order data) = (.ok root, after))
      (hinside : Run listing 0 after (.whole root) inside result) :
      FileRun listing order data (entryHead (.start order data) ++ inside) (ofLines <$> result)

variable {listing : Listing} {depth : Nat} {source after : Source} {form chunk : Chunk} {piece : Piece}
  {reads : List Visit} {result : Guarded ListingFault (List String)}

/-- What is inside a form can be listed, and what is behind it, up to where the form ends. -/
theorem exists_run_rest (listing : Listing) (depth : Nat) (source : Source) (form : Chunk) :
    ∃ reads result, Run listing depth source (.rest form) reads result := by
  -- The distance to the end falls inside the next chunk and behind it. A form that is smaller than its
  -- second tag has its content behind its end, and nothing is met there.
  rcases hnext : Reading.next? form source with ⟨fault | _ | chunk, after⟩
  · exact ⟨_, _, .failed hnext⟩
  · exact ⟨_, _, .done hnext⟩
  · have hbehind := Reading.finish_sub_lt_of_next? hnext
    have hinside := Reading.finish_sub_lt_of_after hnext
    obtain ⟨inside, result, hchunk⟩ :
        ∃ inside result, Run listing (depth + 1) after (.whole chunk) inside result := by
      by_cases hform : chunk.tag.isForm = true
      · obtain ⟨inside, result, hrun⟩ := exists_run_rest listing (depth + 1) after chunk
        rw [Reading.after_of_next? hnext] at hrun ⊢
        exact ⟨inside, _, .form hform hrun⟩
      · exact ⟨[], _, .leaf (Bool.eq_false_iff.mpr hform)⟩
    by_cases hlisted : ∃ lines, result = pure lines
    · obtain ⟨lines, rfl⟩ := hlisted
      obtain ⟨behind, others, hothers⟩ :=
        exists_run_rest listing depth { after with position := chunk.finish } form
      exact ⟨_, _, .listed hnext hchunk hothers⟩
    · exact ⟨_, _, .stopped hnext hchunk fun lines h => hlisted ⟨lines, h⟩⟩
termination_by form.finish - source.position

/-- A piece has one run from a source on. -/
theorem Run.unique (h : Run listing depth source piece reads result) {found : List Visit}
    {other : Guarded ListingFault (List String)} (hfound : Run listing depth source piece found other) :
    found = reads ∧ other = result := by
  -- The tag of a chunk, the next chunk and whether it was listed leave one rule each time.
  induction h generalizing found other with
  | leaf hform =>
      cases hfound with
      | leaf => exact ⟨rfl, rfl⟩
      | form hother => cases hform.symm.trans hother
  | form hform _ ih =>
      cases hfound with
      | leaf hother => cases hform.symm.trans hother
      | form _ hinside =>
          obtain ⟨rfl, rfl⟩ := ih hinside
          exact ⟨rfl, rfl⟩
  | failed hnext =>
      cases hfound with
      | failed hother =>
          cases hnext.symm.trans hother
          exact ⟨rfl, rfl⟩
      | done hother | stopped hother | listed hother => cases hnext.symm.trans hother
  | done hnext =>
      cases hfound with
      | done => exact ⟨rfl, rfl⟩
      | failed hother | stopped hother | listed hother => cases hnext.symm.trans hother
  | stopped hnext _ hresult ih =>
      cases hfound with
      | failed hother | done hother => cases hnext.symm.trans hother
      | stopped hother hchunk =>
          cases hnext.symm.trans hother
          obtain ⟨rfl, rfl⟩ := ih hchunk
          exact ⟨rfl, rfl⟩
      | listed hother hchunk =>
          cases hnext.symm.trans hother
          exact absurd (ih hchunk).2.symm (hresult _)
  | listed hnext _ _ ihchunk ihbehind =>
      cases hfound with
      | failed hother | done hother => cases hnext.symm.trans hother
      | stopped hother hchunk hresult =>
          cases hnext.symm.trans hother
          exact absurd (ihchunk hchunk).2 (hresult _)
      | listed hother hchunk hbehind =>
          cases hnext.symm.trans hother
          obtain ⟨rfl, hlines⟩ := ihchunk hchunk
          obtain ⟨rfl, rfl⟩ := ihbehind hbehind
          obtain rfl := Guarded.pure_inj hlines
          exact ⟨rfl, rfl⟩

section Place

/-- The offset that a piece starts at. -/
def Piece.start (source : Source) : Piece → Nat
  | .whole chunk => chunk.body
  | .rest _ => source.position

/-- The offset that a piece ends at. -/
def Piece.finish : Piece → Nat
  | .whole chunk => chunk.finish
  | .rest form => form.finish

/-- The number of bytes with which a form begins: its tag, its size and its second tag. -/
def formHead : Nat := 12

/-- Before a chunk at a depth are the heads of that many forms, and before what is inside a form is the
form's own head too. -/
def Piece.IsPlaced (depth : Nat) (source : Source) : Piece → Prop
  | .whole chunk => chunk.IsRegular ∧ formHead * depth ≤ chunk.offset
  | .rest _ => formHead * (depth + 1) ≤ source.position

/-- Heads lie one behind another between two offsets, inside a number of bytes and deeper ones further
behind. -/
structure Confined (lower upper length : Nat) (reads : List Visit) : Prop where
  between : ∀ read ∈ reads,
    lower ≤ read.chunk.offset ∧ read.chunk.offset + Chunk.headerLength ≤ upper
  inside : ∀ read ∈ reads, read.chunk.IsRegular ∧ read.chunk.content ≤ length
  deep : ∀ read ∈ reads, formHead * read.depth ≤ read.chunk.offset
  apart : reads.Pairwise fun first second =>
    first.chunk.offset + Chunk.headerLength ≤ second.chunk.offset

variable {lower middle upper last length : Nat} {first second : List Visit}

/-- Heads between two offsets are between others further apart. -/
theorem Confined.mono (h : Confined middle upper length reads) (hlower : lower ≤ middle)
    (hupper : upper ≤ last) : Confined lower last length reads where
  between read hread :=
    ⟨Nat.le_trans hlower (h.between read hread).1, Nat.le_trans (h.between read hread).2 hupper⟩
  inside := h.inside
  deep := h.deep
  apart := h.apart

/-- Heads up to an offset and heads from it on. -/
theorem Confined.append (hfirst : Confined lower middle length first)
    (hsecond : Confined middle upper length second) (hlower : lower ≤ middle)
    (hupper : middle ≤ upper) : Confined lower upper length (first ++ second) where
  between := List.forall_mem_append.mpr
    ⟨(hfirst.mono (Nat.le_refl _) hupper).between, (hsecond.mono hlower (Nat.le_refl _)).between⟩
  inside := List.forall_mem_append.mpr ⟨hfirst.inside, hsecond.inside⟩
  deep := List.forall_mem_append.mpr ⟨hfirst.deep, hsecond.deep⟩
  apart := List.pairwise_append.mpr ⟨hfirst.apart, hsecond.apart, fun read hread other hother =>
    Nat.le_trans (hfirst.between read hread).2 (hsecond.between other hother).1⟩

/-- No heads. -/
theorem Confined.nil : Confined lower upper length [] :=
  ⟨nofun, nofun, nofun, .nil⟩

/-- One head. -/
theorem Confined.singleton {read : Visit} (hoffset : read.chunk.offset = lower)
    (hregular : read.chunk.IsRegular) (hcontent : read.chunk.content ≤ length)
    (hdeep : formHead * read.depth ≤ lower) :
    Confined lower (lower + Chunk.headerLength) length [read] where
  between := List.forall_mem_singleton.mpr
    ⟨Nat.le_of_eq hoffset.symm, Nat.le_of_eq (congrArg (· + Chunk.headerLength) hoffset)⟩
  inside := List.forall_mem_singleton.mpr ⟨hregular, hcontent⟩
  deep := List.forall_mem_singleton.mpr (hoffset ▸ hdeep)
  apart := List.pairwise_singleton ..

/-- The heads behind the first. -/
theorem Confined.tail {read : Visit} (h : Confined lower upper length (read :: reads)) :
    Confined (read.chunk.offset + Chunk.headerLength) upper length reads where
  between other hother :=
    ⟨(List.pairwise_cons.mp h.apart).1 other hother,
      (h.between other (List.mem_cons_of_mem _ hother)).2⟩
  inside other hother := h.inside other (List.mem_cons_of_mem _ hother)
  deep other hother := h.deep other (List.mem_cons_of_mem _ hother)
  apart := (List.pairwise_cons.mp h.apart).2

/-- There are no more heads than there is room for. -/
theorem Confined.length_le (h : Confined lower upper length reads) (hlower : lower ≤ length) :
    lower + Chunk.headerLength * reads.length ≤ length := by
  induction reads generalizing lower with
  | nil => exact hlower
  | cons read reads ih =>
      have hcontent := (h.inside read (List.mem_cons_self ..)).2
      have hoffset := (h.between read (List.mem_cons_self ..)).1
      have hbody : read.chunk.offset + Chunk.headerLength ≤ read.chunk.content := Nat.le_add_right ..
      have hothers := ih h.tail (Nat.le_trans hbody hcontent)
      rw [List.length_cons, Nat.mul_succ]
      omega

/-- What is inside a form begins behind its head. -/
theorem content_of_isForm (hregular : chunk.IsRegular) (hform : chunk.tag.isForm = true) :
    chunk.content = chunk.offset + formHead := by
  have hsubtype : chunk.subtype.isSome = true := hregular.trans hform
  rw [Chunk.content, if_pos hsubtype]
  rfl

/-- A form among them has no more forms around it than there is room for. -/
theorem Confined.depth_lt (h : Confined lower upper length reads) {read : Visit} (hread : read ∈ reads)
    (hform : read.chunk.tag.isForm = true) : formHead * (read.depth + 1) ≤ length := by
  obtain ⟨hregular, hcontent⟩ := h.inside read hread
  have hdeep := h.deep read hread
  rw [content_of_isForm hregular hform] at hcontent
  rw [Nat.mul_succ]
  omega

/-- The head that is read in entering a chunk, at a depth. -/
theorem confined_headRead (hdeep : formHead * depth ≤ source.position) :
    Confined source.position (source.position + Chunk.headerLength) source.data.length
      ((Reading.headRead source).map (Visit.mk depth)) := by
  rcases Reading.headRead_cases source with hnone | ⟨chunk, hsome, hoffset, hregular, hcontent⟩
  · rw [hnone]
    exact .nil
  · rw [hsome]
    exact .singleton hoffset hregular hcontent hdeep

/-- The head that is read in looking for the next chunk inside a form ends before the form does. -/
theorem confined_sought (hplaced : (Piece.rest form).IsPlaced depth source) :
    Confined source.position form.finish source.data.length (sought form depth source) := by
  unfold sought
  rcases Reading.headSought_cases form source with hnone | ⟨hsome, hroom⟩
  · rw [hnone]
    exact .nil
  · rw [hsome]
    exact (confined_headRead hplaced).mono (Nat.le_refl _) hroom

/-- What is inside a form has the form's head before it. -/
theorem isPlaced_inside (hplaced : (Piece.whole chunk).IsPlaced depth source)
    (hform : chunk.tag.isForm = true) :
    (Piece.rest chunk).IsPlaced depth { source with position := chunk.content } := by
  obtain ⟨hregular, hdeep⟩ := hplaced
  show formHead * (depth + 1) ≤ chunk.content
  rw [content_of_isForm hregular hform, Nat.mul_succ]
  exact Nat.add_le_add_right hdeep _

/-- What is behind the next chunk inside a form has the same forms around it. -/
theorem isPlaced_behind (hnext : Reading.next? form source = (.ok (some chunk), after))
    (hplaced : (Piece.rest form).IsPlaced depth source) :
    (Piece.rest form).IsPlaced depth { after with position := chunk.finish } := by
  have hstart := Reading.offset_add_le_finish chunk
  rw [(Reading.bounds_of_next? hnext).1] at hstart
  exact Nat.le_trans hplaced (Nat.le_trans (Nat.le_add_right ..) hstart)

/-- The next chunk inside a form is one deeper, and its head the one that is read. -/
theorem placed_next (hnext : Reading.next? form source = (.ok (some chunk), after))
    (hplaced : (Piece.rest form).IsPlaced depth source) :
    (Piece.whole chunk).IsPlaced (depth + 1) after ∧
      Confined source.position chunk.body source.data.length (sought form depth source) := by
  obtain ⟨hheader, hsought⟩ := Reading.header_of_next? hnext
  obtain ⟨hoffset, hregular, hcontent⟩ := Reading.head_inside hheader
  rw [sought, hsought, Chunk.body, hoffset]
  exact ⟨⟨hregular, Nat.le_trans hplaced (Nat.le_of_eq hoffset.symm)⟩,
    .singleton hoffset hregular hcontent hplaced⟩

end Place

/-- The heads that a run reads are confined to what the run is about. -/
theorem Run.confined (h : Run listing depth source piece reads result)
    (hplaced : piece.IsPlaced depth source) :
    Confined (piece.start source) piece.finish source.data.length reads := by
  -- What is read inside the next chunk lies between its body and its end, and what is read behind it, after.
  induction h with
  | leaf hform => exact .nil
  | form hform _ ih =>
      exact (ih (isPlaced_inside hplaced hform)).mono (Nat.le_add_right ..) (Nat.le_refl _)
  | failed hnext | done hnext => exact confined_sought hplaced
  | @stopped depth source after form chunk inside result hnext _ _ ih =>
      obtain ⟨hoffset, hfinish⟩ := Reading.bounds_of_next? hnext
      obtain ⟨hchunk, hhead⟩ := placed_next hnext hplaced
      have hinside := ih hchunk
      rw [Reading.after_of_next? hnext] at hinside
      have hbody : source.position ≤ chunk.body := hoffset ▸ Nat.le_add_right ..
      exact hhead.append (hinside.mono (Nat.le_refl _) hfinish) hbody
        (Nat.le_trans (Nat.le_add_right ..) hfinish)
  | @listed depth source after form chunk inside behind lines result hnext _ _ ihchunk ihbehind =>
      obtain ⟨hoffset, hfinish⟩ := Reading.bounds_of_next? hnext
      obtain ⟨hchunk, hhead⟩ := placed_next hnext hplaced
      have hinside := ihchunk hchunk
      have hbehind := ihbehind (isPlaced_behind hnext hplaced)
      have hbody : source.position ≤ chunk.body := hoffset ▸ Nat.le_add_right ..
      rw [Reading.after_of_next? hnext] at hinside hbehind
      exact hhead.append (hinside.append hbehind (Nat.le_add_right ..) hfinish) hbody
        (Nat.le_trans (Nat.le_add_right ..) hfinish)

section Result

/-- The walk of a piece at a depth. -/
def Piece.walk (depth : Nat) (source : Source) : Piece → List Visit × Option ChunkFault
  | .whole chunk => chunk.walkWhole depth source
  | .rest form => form.walkFrom (depth + 1) source

/-- The lines of what a walk visits, unless a fault ended it. -/
def linesOf (listing : Listing) (source : Source) (walk : List Visit × Option ChunkFault) : Lines := do
  let lines ← walk.1.mapM (listing.visitLines source)
  match walk.2 with
  | some fault => throw (.container fault)
  | none => pure lines.flatten

/-- The lines of one walk come before those of the other. -/
theorem linesOf_followedBy (first second : List Visit × Option ChunkFault) :
    listing.linesOf source (Chunk.followedBy first second) = (do
      let lines ← listing.linesOf source first
      let others ← listing.linesOf source second
      pure (lines ++ others)) := by
  obtain ⟨visits, fault⟩ := first
  cases fault with
  | some fault =>
      show listing.linesOf source (visits, some fault) = _
      unfold linesOf
      cases visits.mapM (listing.visitLines source) <;> rfl
  | none =>
      show listing.linesOf source (visits ++ second.1, second.2) = _
      unfold linesOf
      rw [List.mapM_append]
      cases visits.mapM (listing.visitLines source) with
      | error fault => rfl
      | ok lines =>
          cases second.1.mapM (listing.visitLines source) with
          | error fault => rfl
          | ok others =>
              cases second.2 with
              | some fault => rfl
              | none => exact congrArg Except.ok List.flatten_append

/-- The lines of one chunk. -/
theorem linesOf_singleton (visit : Visit) :
    listing.linesOf source ([visit], none) = listing.visitLines source visit := by
  unfold linesOf
  rw [List.mapM_cons, List.mapM_nil]
  cases listing.visitLines source visit with
  | error fault => rfl
  | ok lines => exact congrArg Except.ok (List.append_nil lines)

/-- A chunk that is no form has its own line and those of its content. -/
theorem linesOf_leaf (hform : chunk.tag.isForm = false) :
    listing.linesOf source (chunk.walkWhole depth source) =
      (listing.chunkLine depth chunk :: ·) <$> listing.leafLines (depth + 1) source chunk := by
  have hwalk : chunk.walkWhole depth source = ([⟨depth, chunk⟩], none) := by
    rw [Chunk.walkWhole, hform]
    rfl
  rw [hwalk, linesOf_singleton, visitLines, hform]
  cases listing.leafLines (depth + 1) source chunk <;> rfl

/-- A form has its own line and those of what is inside. -/
theorem linesOf_form (hform : chunk.tag.isForm = true) :
    listing.linesOf source (chunk.walkWhole depth source) =
      (listing.chunkLine depth chunk :: ·) <$>
        listing.linesOf source (chunk.walk (depth + 1) source) := by
  have hwalk : chunk.walkWhole depth source =
      Chunk.followedBy ([⟨depth, chunk⟩], none) (chunk.walk (depth + 1) source) := by
    rw [Chunk.walkWhole, if_pos hform]
    rfl
  rw [hwalk, linesOf_followedBy, linesOf_singleton, visitLines, if_pos hform]
  cases listing.linesOf source (chunk.walk (depth + 1) source) <;> rfl

/-- No step of a run reaches outside, and what comes of the run are the lines of the walk. -/
theorem Run.result_eq (h : Run listing depth source piece reads result)
    (hplaced : piece.IsPlaced depth source) :
    result = Guarded.settled (listing.linesOf source (piece.walk depth source)) := by
  -- The sources of a run differ in their positions only, which no lines depend on.
  induction h with
  | @leaf depth source chunk hform =>
      have hsubtype : chunk.subtype = none :=
        Option.isNone_iff_eq_none.mp (Option.isSome_eq_false_iff.mp (hplaced.1.trans hform))
      rw [Guarded.leafLines_eq listing (depth + 1) source hsubtype, Guarded.map_settled, Piece.walk,
        linesOf_leaf hform]
  | @form depth source chunk reads result hform _ ih =>
      have hinside : result = Guarded.settled (listing.linesOf source (chunk.walk (depth + 1) source)) :=
        ih (isPlaced_inside hplaced hform)
      rw [hinside, Guarded.map_settled, Piece.walk, linesOf_form hform]
  | failed hnext =>
      rw [Piece.walk, Chunk.walkFrom_of_error hnext]
      rfl
  | done hnext =>
      rw [Piece.walk, Chunk.walkFrom_of_none hnext]
      rfl
  | @stopped depth source after form chunk inside result hnext _ hresult ih =>
      obtain rfl := Reading.after_of_next? hnext
      have hinside : result = Guarded.settled (listing.linesOf source
          (chunk.walkWhole (depth + 1) { source with position := chunk.content })) :=
        ih (placed_next hnext hplaced).1
      rw [hinside] at hresult ⊢
      rw [Piece.walk, Chunk.walkFrom_of_next? hnext, linesOf_followedBy]
      cases hlines : listing.linesOf source
        (chunk.walkWhole (depth + 1) { source with position := chunk.content }) with
      | error fault => rfl
      | ok lines => exact absurd (congrArg Guarded.settled hlines) (hresult lines)
  | @listed depth source after form chunk inside behind lines result hnext _ _ ihchunk ihbehind =>
      obtain rfl := Reading.after_of_next? hnext
      have hinside : Guarded.settled (.ok lines) = Guarded.settled (listing.linesOf source
          (chunk.walkWhole (depth + 1) { source with position := chunk.content })) :=
        ihchunk (placed_next hnext hplaced).1
      have hbehind : result = Guarded.settled (listing.linesOf source
          (form.walkFrom (depth + 1) { source with position := chunk.finish })) :=
        ihbehind (isPlaced_behind hnext hplaced)
      rw [Piece.walk, Chunk.walkFrom_of_next? hnext, linesOf_followedBy,
        ← Except.ok.inj hinside, hbehind, Guarded.map_settled]
      cases listing.linesOf source (form.walkFrom (depth + 1) { source with position := chunk.finish })
        <;> rfl

end Result

section File

variable {order : ByteOrder} {data : Bytes} {text : Guarded ListingFault String}

/-- The container of a file is a form at the start. -/
theorem root_of_entry? {first : Tag} {enter : Reading Chunk} {root : Chunk}
    (hfirst : (Tag.ofBytes? source.data).getD .blank = first) (hentry : entry? first = some enter)
    (hstart : source.position = 0) (henter : enter source = (.ok root, after)) :
    root.tag.isForm = true ∧ root.offset = 0 ∧ root.IsRegular ∧ after.data = source.data := by
  unfold entry? at hentry
  split at hentry
  · cases hentry
    obtain ⟨htag, hregular, hoffset, hdata⟩ := Reading.root_of_openRoot henter
    exact ⟨congrArg Tag.isForm htag, hoffset.trans hstart, hregular, hdata⟩
  · split at hentry
    · rename_i hlist
      cases hentry
      obtain ⟨hrest, hregular, hafter⟩ := Reading.rest_of_header henter
      have htag : root.tag = first := by
        rw [Source.rest, hstart, List.drop_zero] at hrest
        rw [hrest] at hfirst
        exact hfirst
      have hdata : after.data = source.data := by rw [hafter]
      exact ⟨by rw [htag, hlist]; rfl, (Reading.offset_of_header henter).trans hstart, hregular, hdata⟩
    · cases hentry

/-- Every file has a run. -/
theorem exists_fileRun (listing : Listing) (order : ByteOrder) (data : Bytes) :
    ∃ reads text, FileRun listing order data reads text := by
  cases hentry : entry? ((Tag.ofBytes? data).getD .blank) with
  | none => exact ⟨_, _, .refused hentry⟩
  | some enter =>
      rcases henter : enter (.start order data) with ⟨fault | root, after⟩
      · exact ⟨_, _, .failed hentry henter⟩
      · obtain ⟨hform, -⟩ := root_of_entry? rfl hentry rfl henter
        obtain ⟨reads, result, hinside⟩ :=
          exists_run_rest listing 0 { after with position := root.content } root
        exact ⟨_, _, .entered hentry henter (.form hform hinside)⟩

/-- A file has one run. -/
theorem FileRun.unique (h : FileRun listing order data reads text) {found : List Visit}
    {other : Guarded ListingFault String} (hfound : FileRun listing order data found other) :
    found = reads ∧ other = text := by
  cases h with
  | refused hentry =>
      cases hfound with
      | refused => exact ⟨rfl, rfl⟩
      | failed hother | entered hother => cases hentry.symm.trans hother
  | failed hentry henter =>
      cases hfound with
      | refused hother => cases hentry.symm.trans hother
      | failed hother hfault =>
          cases hentry.symm.trans hother
          cases henter.symm.trans hfault
          exact ⟨rfl, rfl⟩
      | entered hother hroot =>
          cases hentry.symm.trans hother
          cases henter.symm.trans hroot
  | entered hentry henter hinside =>
      cases hfound with
      | refused hother => cases hentry.symm.trans hother
      | failed hother hfault =>
          cases hentry.symm.trans hother
          cases henter.symm.trans hfault
      | entered hother hroot hothers =>
          cases hentry.symm.trans hother
          cases henter.symm.trans hroot
          obtain ⟨rfl, rfl⟩ := hinside.unique hothers
          exact ⟨rfl, rfl⟩

/-- The heads that a run reads of a file lie inside of it. -/
theorem FileRun.confined (h : FileRun listing order data reads text) :
    ∃ upper, Confined 0 upper data.length reads := by
  have hentered : Confined 0 Chunk.headerLength data.length (entryHead (.start order data)) :=
    @confined_headRead 0 (.start order data) (Nat.le_refl _)
  cases h with
  | refused hentry => exact ⟨0, .nil⟩
  | failed hentry henter => exact ⟨_, hentered⟩
  | @entered enter root after inside result hentry henter hinside =>
      obtain ⟨-, hoffset, hregular, hdata⟩ := root_of_entry? rfl hentry rfl henter
      have hplaced : (Piece.whole root).IsPlaced 0 after := ⟨hregular, Nat.zero_le _⟩
      have hbody : root.body = Chunk.headerLength := by rw [Chunk.body, hoffset, Nat.zero_add]
      have hconfined := hinside.confined hplaced
      rw [Piece.start, hbody, hdata] at hconfined
      exact ⟨_, hentered.append hconfined (Nat.zero_le _)
        (Nat.le_trans (Nat.le_of_eq hbody.symm) (Nat.le_add_right ..))⟩

/-- A form is listed by its own line and the lines of the walk through it. -/
theorem formLines_eq (listing : Listing) (hform : form.tag.isForm = true) :
    listing.formLines source form = listing.linesOf source (form.walkWhole 0 source) := by
  rw [linesOf_form hform, formLines, linesOf]
  rcases form.walk 1 source with ⟨visits, fault⟩
  dsimp only
  cases visits.mapM (listing.visitLines source) with
  | error other => rfl
  | ok lines => cases fault <;> rfl

/-- A file that does not begin with a form has no listing. -/
theorem file_of_entry?_none (h : entry? ((Tag.ofBytes? data).getD .blank) = none) :
    listing.file order data = .error (.notAContainer ((Tag.ofBytes? data).getD .blank)) := by
  unfold entry? at h
  unfold file
  generalize (Tag.ofBytes? data).getD .blank = first at h ⊢
  split at h
  · cases h
  · rename_i hform
    split at h
    · cases h
    · rename_i hlist
      dsimp only
      rw [if_neg hform, if_neg hlist]
      rfl

/-- A file that begins with a form is listed by the lines of that form. -/
theorem file_of_entry?_some {enter : Reading Chunk}
    (h : entry? ((Tag.ofBytes? data).getD .blank) = some enter) :
    listing.file order data = (do
      let root ← reading (.start order data) enter
      ofLines <$> listing.formLines (enter.run.run (.start order data)).2 root) := by
  unfold entry? at h
  unfold file
  generalize (Tag.ofBytes? data).getD .blank = first at h ⊢
  dsimp only
  split at h
  · rename_i hform
    cases h
    rw [if_pos hform]
    rfl
  · rename_i hform
    split at h
    · rename_i hlist
      cases h
      rw [if_neg hform, if_pos hlist]
      rfl
    · cases h

/-- No step of a run reaches outside of a file, and what comes of the run is the listing. -/
theorem FileRun.text_eq (h : FileRun listing order data reads text) :
    text = Guarded.settled (listing.file order data) := by
  cases h with
  | refused hentry =>
      rw [file_of_entry?_none hentry]
      rfl
  | @failed enter fault after hentry henter =>
      rw [file_of_entry?_some hentry, reading_of_error henter]
      rfl
  | @entered enter root after inside result hentry henter hinside =>
      obtain ⟨hform, -, hregular, -⟩ := root_of_entry? rfl hentry rfl henter
      have hafter : (enter.run.run (.start order data)).2 = after := congrArg Prod.snd henter
      rw [file_of_entry?_some hentry, reading_of_eq henter, hafter,
        hinside.result_eq ⟨hregular, Nat.zero_le _⟩, Guarded.map_settled, Piece.walk,
        ← formLines_eq listing hform]
      rfl

/-- Chunks stay inside the chunks around them, and listings inside their files. The next chunk inside
another starts at the position and ends no later than the other. Chunks that are met one after another
follow each other without overlap; they come to an end, and where there is no next one fewer bytes are
left than a tag and a size take. The search for a tag finds the first of them that has it, or what is met
behind all of them. Every file has one run of its listing, whatever is in it, and the run comes to the
listing or its fault without reaching outside of any bytes and without a negative length. It reads no
more heads to their end than there is room for beside one another in the file, and the heads of forms no
deeper than there is room for one inside another. -/
theorem chunks_inside (parent : Chunk) (source : Source) (wanted : Tag) (listing : Listing)
    (order : ByteOrder) (data : Bytes) :
    (∀ chunk after, Reading.next? parent source = (.ok (some chunk), after) →
      chunk.offset = source.position ∧ chunk.finish ≤ parent.finish) ∧
    (∀ chunks last, Reading.Passes parent source chunks last →
      (∀ chunk ∈ chunks, source.position ≤ chunk.offset ∧ chunk.finish ≤ parent.finish) ∧
      (chunks.Pairwise fun first second => first.finish ≤ second.offset) ∧
      ∀ after, Reading.next? parent last = (.ok none, after) →
        parent.finish - last.position < Chunk.headerLength) ∧
    (∃ chunks last, Reading.Passes parent source chunks last ∧
      ∀ chunk after, Reading.next? parent last ≠ (.ok (some chunk), after)) ∧
    (∀ result, Reading.find parent wanted source = result ↔
      ∃ before last, Reading.Passes parent { source with position := parent.content } before last ∧
        (∀ chunk ∈ before, chunk.tag ≠ wanted) ∧ Reading.next? parent last = result ∧
          ∀ chunk after, result = (.ok (some chunk), after) → chunk.tag = wanted) ∧
    ∃ reads, (∀ found text, FileRun listing order data found text ↔
        found = reads ∧ text = Guarded.settled (listing.file order data)) ∧
      reads.length ≤ data.length / 8 ∧
        ∀ read ∈ reads, read.chunk.tag.isForm = true → read.depth + 1 ≤ data.length / 12 := by
  refine ⟨fun chunk after => Reading.bounds_of_next?, fun chunks last hpasses => ?_,
    Reading.exists_passes parent source, fun result => Reading.find_eq_iff, ?_⟩
  · refine ⟨fun chunk hchunk => ?_, hpasses.pairwise, fun after hnone => ?_⟩
    · obtain ⟨hstart, -, hfinish⟩ := hpasses.bounds.2 chunk hchunk
      exact ⟨hstart, hfinish⟩
    · have hend := (Reading.next?_eq_none.mp hnone).1
      rw [Chunk.headerLength] at hend ⊢
      omega
  · obtain ⟨reads, text, hrun⟩ := exists_fileRun listing order data
    obtain ⟨upper, hconfined⟩ := hrun.confined
    have hlength := hconfined.length_le (Nat.zero_le _)
    -- There is one run of a file, and its text is the listing.
    have hruns (found : List Visit) (other : Guarded ListingFault String) :
        FileRun listing order data found other ↔
          found = reads ∧ other = Guarded.settled (listing.file order data) := by
      constructor
      · intro hfound
        exact ⟨(hrun.unique hfound).1, hfound.text_eq⟩
      · rintro ⟨rfl, rfl⟩
        rwa [hrun.text_eq] at hrun
    refine ⟨reads, hruns, ?_, fun read hread hform => ?_⟩
    · rw [Chunk.headerLength] at hlength
      omega
    · have hdepth := hconfined.depth_lt hread hform
      rw [formHead] at hdepth
      omega

/-- A root form with an empty list inside and an empty chunk behind the list. -/
def listAndChunk : Bytes :=
  Tag.form.bytes ++ [0, 0, 0, 24] ++ Tag.rootBig.bytes ++
    (Tag.list.bytes ++ [0, 0, 0, 4] ++ Tag.mediaList.bytes) ++ (Tag.blank.bytes ++ [0, 0, 0, 0])

/-- Two chunks are met inside the root form, of which the second is found by its tag; a run of the listing
reads three heads in thirty-two bytes, and two forms are one inside the other. -/
theorem chunks_inside_listAndChunk :
    let parent : Chunk := ⟨.form, some .rootBig, 0, 24⟩
    let inner : Chunk := ⟨.list, some .mediaList, 12, 4⟩
    let leaf : Chunk := ⟨.blank, none, 24, 0⟩
    let listing : Listing := ⟨.plain, none⟩
    (inner.offset = 12 ∧ inner.finish ≤ parent.finish) ∧
      [inner, leaf].Pairwise (fun first second => first.finish ≤ second.offset) ∧
      parent.finish - 32 < Chunk.headerLength ∧
      Reading.find parent .blank ⟨listAndChunk, 32, .big⟩ =
        (.ok (some leaf), ⟨listAndChunk, 32, .big⟩) ∧
      ∃ text, FileRun listing .big listAndChunk [⟨0, parent⟩, ⟨1, inner⟩, ⟨1, leaf⟩] text ∧
        text = Guarded.settled (listing.file .big listAndChunk) ∧
        3 ≤ listAndChunk.length / 8 ∧ 1 + 1 ≤ listAndChunk.length / 12 := by
  intro parent inner leaf listing
  let source : Source := ⟨listAndChunk, 12, .big⟩
  have hinner : Reading.next? parent source =
      (.ok (some inner), ⟨listAndChunk, 24, .big⟩) := rfl
  have hleaf : Reading.next? parent ⟨listAndChunk, 24, .big⟩ =
      (.ok (some leaf), ⟨listAndChunk, 32, .big⟩) := rfl
  have hend : Reading.next? parent ⟨listAndChunk, 32, .big⟩ =
      (.ok none, ⟨listAndChunk, 32, .big⟩) := rfl
  have hinside : Reading.next? inner ⟨listAndChunk, 24, .big⟩ =
      (.ok none, ⟨listAndChunk, 24, .big⟩) := rfl
  have hpasses : Reading.Passes parent source [inner, leaf] ⟨listAndChunk, 32, .big⟩ :=
    .cons hinner (.cons hleaf (.nil _))
  have hlist : Run listing 1 ⟨listAndChunk, 24, .big⟩ (.whole inner) []
      (pure [listing.chunkLine 1 inner]) := .form rfl (.done hinside)
  have hblank : Run listing 1 ⟨listAndChunk, 32, .big⟩ (.whole leaf) []
      (pure [listing.chunkLine 1 leaf]) := .leaf rfl
  have hroot : Run listing 0 source (.whole parent) [⟨1, inner⟩, ⟨1, leaf⟩] _ :=
    .form rfl (.listed hinner hlist (.listed hleaf hblank (.done hend)))
  have hentry : Reading.openRoot (.start .big listAndChunk) = (.ok parent, source) := rfl
  have hrun : FileRun listing .big listAndChunk [⟨0, parent⟩, ⟨1, inner⟩, ⟨1, leaf⟩] _ :=
    .entered rfl hentry hroot
  obtain ⟨hnext, hmet, -, hfound, reads, hruns, hlength, hforms⟩ :=
    chunks_inside parent source .blank listing .big listAndChunk
  obtain ⟨-, hapart, hleft⟩ := hmet _ _ hpasses
  obtain ⟨rfl, htext⟩ := (hruns _ _).mp hrun
  refine ⟨hnext _ _ hinner, hapart, hleft _ hend, ?_, _, hrun, htext, hlength,
    hforms ⟨1, inner⟩ (.tail _ (.head _)) rfl⟩
  exact (hfound _).mpr ⟨[inner], _, .cons hinner (.nil _), by decide, hleaf,
    fun chunk after h => by cases h; rfl⟩

end File

end StageArchive.Listing
