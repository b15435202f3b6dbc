import StageArchive.Proofs.Chunk.Source
/-!
# Chunks stay inside

The chunks that are met one after another inside another follow each other without overlap, and each ends
where the other ends or before. They are all met when no header fits any more, and the first of
them with a tag is the one that a search finds.
-/

namespace StageArchive.Reading

variable {parent chunk : Chunk} {source after last : Source} {chunks : List Chunk} {wanted : Tag}

/-- A chunk has its tag and size before its end. -/
theorem offset_add_le_finish (chunk : Chunk) : chunk.offset + Chunk.headerLength ≤ chunk.finish :=
  Nat.le_add_right ..

/-- Chunks that are passed lie behind where the passing starts and before where it ends. -/
theorem Passes.bounds (h : Passes parent source chunks last) :
    source.position ≤ last.position ∧ ∀ chunk ∈ chunks,
      source.position ≤ chunk.offset ∧ chunk.finish ≤ last.position ∧
        chunk.finish ≤ parent.finish := by
  induction h with
  | nil source => exact ⟨Nat.le_refl _, nofun⟩
  | @cons source after last chunk others hnext _ ih =>
      obtain ⟨hoffset, hinside⟩ := bounds_of_next? hnext
      obtain ⟨hlast, hothers⟩ := ih
      have hstart := offset_add_le_finish chunk
      dsimp only at hlast hothers
      refine ⟨by omega, List.forall_mem_cons.mpr ⟨⟨by omega, hlast, hinside⟩, ?_⟩⟩
      intro other hother
      obtain ⟨hbehind, hends⟩ := hothers other hother
      exact ⟨by omega, hends⟩

/-- Chunks that are passed follow one another and do not overlap. -/
theorem Passes.pairwise (h : Passes parent source chunks last) :
    chunks.Pairwise fun first second => first.finish ≤ second.offset := by
  induction h with
  | nil source => exact .nil
  | cons hnext hothers ih =>
      exact List.pairwise_cons.mpr
        ⟨fun other hother => (hothers.bounds.2 other hother).1, ih⟩

/-- Chunks are passed until there is no next one, or none that can be entered. -/
theorem exists_passes (parent : Chunk) (source : Source) :
    ∃ chunks last, Passes parent source chunks last ∧
      ∀ chunk after, next? parent last ≠ (.ok (some chunk), after) := by
  induction source using childrenFrom.induct parent with
  | case1 source fault after hnext | case2 source after hnext =>
      refine ⟨[], source, .nil _, fun chunk other h => ?_⟩
      cases hnext.symm.trans h
  | case3 source chunk after hnext _ _ _ _ ih | case4 source chunk after hnext _ _ _ _ ih =>
      obtain ⟨chunks, last, hpasses, hend⟩ := ih
      exact ⟨chunk :: chunks, last, .cons hnext hpasses, hend⟩

/-- The search for a tag ends at the next chunk or goes on behind it. -/
theorem findFrom_of_next? {parent chunk : Chunk} {wanted : Tag} {source after : Source}
    (h : next? parent source = (.ok (some chunk), after)) :
    findFrom parent wanted source =
      if chunk.tag = wanted then (.ok (some chunk), after)
      else findFrom parent wanted { after with position := chunk.finish } := by
  rw [findFrom]
  split
  · rename_i hnext
    cases h.symm.trans hnext
  · rename_i hnext
    cases h.symm.trans hnext
  · rename_i hnext
    cases h.symm.trans hnext
    rfl

/-- The search for a tag ends where nothing is found next. -/
theorem findFrom_of_forall_ne
    (h : ∀ chunk after, next? parent source ≠ (.ok (some chunk), after)) :
    findFrom parent wanted source = next? parent source := by
  rw [findFrom]
  split
  · rename_i hnext
    exact hnext.symm
  · rename_i hnext
    exact hnext.symm
  · rename_i hnext
    exact absurd hnext (h _ _)

/-- The search for a tag passes chunks with others and comes to what is met behind them: a chunk with the
tag, the end or a fault. -/
theorem findFrom_eq_iff {result : Except ChunkFault (Option Chunk) × Source} :
    findFrom parent wanted source = result ↔ ∃ before last, Passes parent source before last ∧
      (∀ chunk ∈ before, chunk.tag ≠ wanted) ∧ next? parent last = result ∧
        ∀ chunk after, result = (.ok (some chunk), after) → chunk.tag = wanted := by
  constructor
  · rintro rfl
    induction source using findFrom.induct parent wanted with
    | case1 source fault after hnext | case2 source after hnext =>
        have hne (chunk : Chunk) (other : Source) :
            next? parent source ≠ (.ok (some chunk), other) := by
          intro h
          cases hnext.symm.trans h
        rw [findFrom_of_forall_ne hne]
        exact ⟨[], source, .nil _, nofun, rfl, fun chunk other h => absurd h (hne chunk other)⟩
    | case3 source chunk after hnext htag =>
        rw [findFrom_of_next? hnext, if_pos htag]
        refine ⟨[], source, .nil _, nofun, hnext, fun other behind h => ?_⟩
        cases h
        exact htag
    | case4 source chunk after hnext htag _ ih =>
        rw [findFrom_of_next? hnext, if_neg htag]
        obtain ⟨before, last, hpasses, hothers, hfound⟩ := ih
        exact ⟨chunk :: before, last, .cons hnext hpasses,
          List.forall_mem_cons.mpr ⟨htag, hothers⟩, hfound⟩
  · rintro ⟨before, last, hpasses, hothers, hnext, hfound⟩
    induction hpasses with
    | nil source =>
        -- The walk stops here either at a chunk, which is the wanted one, or for good.
        by_cases hsome : ∃ chunk after, next? parent source = (.ok (some chunk), after)
        · obtain ⟨chunk, after, hsome⟩ := hsome
          rw [findFrom_of_next? hsome, if_pos (hfound chunk after (hnext.symm.trans hsome))]
          exact hsome.symm.trans hnext
        · rw [findFrom_of_forall_ne fun chunk after h => hsome ⟨chunk, after, h⟩]
          exact hnext
    | cons hchunk _ ih =>
        obtain ⟨hother, hothers⟩ := List.forall_mem_cons.mp hothers
        rw [findFrom_of_next? hchunk, if_neg hother]
        exact ih hothers hnext

/-- The search inside a chunk starts at its content. -/
theorem find_eq_iff {result : Except ChunkFault (Option Chunk) × Source} :
    find parent wanted source = result ↔
      ∃ before last, Passes parent { source with position := parent.content } before last ∧
        (∀ chunk ∈ before, chunk.tag ≠ wanted) ∧ next? parent last = result ∧
          ∀ chunk after, result = (.ok (some chunk), after) → chunk.tag = wanted :=
  findFrom_eq_iff

/-- A chunk whose head is read lies at the position, and the data holds its head. -/
theorem head_inside (h : header source = (.ok chunk, after)) :
    chunk.offset = source.position ∧ chunk.IsRegular ∧ chunk.content ≤ source.data.length := by
  obtain ⟨hrest, hregular, -⟩ := rest_of_header h
  have hoffset := offset_of_header h
  have hhead := chunk.length_head source.order
  have hlength := congrArg List.length hrest
  have hstart : chunk.offset + Chunk.headerLength ≤ chunk.content := Nat.le_add_right ..
  rw [Source.rest, List.length_drop, List.length_append] at hlength
  rw [Chunk.headerLength] at hstart
  exact ⟨hoffset, hregular, by omega⟩

/-- A chunk that is entered by its tag is the one whose head is read. -/
theorem header_of_descend {expected : Tag} (h : descend expected source = (.ok chunk, after)) :
    header source = (.ok chunk, after) ∧ chunk.tag = expected := by
  obtain ⟨found, entered, hheader, h⟩ := run_bind_eq_ok.mp h
  split at h
  · rename_i htag
    cases h
    exact ⟨hheader, htag⟩
  · cases h

/-- A root form that is entered lies at the position, and the data stays what it was. -/
theorem root_of_openRoot (h : openRoot source = (.ok chunk, after)) :
    chunk.tag = .form ∧ chunk.IsRegular ∧ chunk.offset = source.position ∧
      after.data = source.data := by
  rw [openRoot, run_bind_of_eq (run_position source)] at h
  obtain ⟨found, entered, hdescend, h⟩ := run_bind_eq_ok.mp h
  obtain ⟨hheader, htag⟩ := header_of_descend hdescend
  obtain ⟨-, hregular, rfl⟩ := rest_of_header hheader
  have hoffset := offset_of_header hheader
  cases horder : (found.subtype.getD .blank).order? with
  | none =>
      rw [horder] at h
      cases h
  | some order =>
      rw [horder] at h
      obtain ⟨_, ordered, hordered, h⟩ := run_bind_eq_ok.mp h
      obtain ⟨_, sought, hseek, h⟩ := run_bind_eq_ok.mp h
      obtain ⟨size, read, hword, h⟩ := run_bind_eq_ok.mp h
      obtain ⟨-, rfl⟩ := rest_of_word hword
      cases hordered
      cases hseek
      cases h
      exact ⟨htag, hregular, hoffset, rfl⟩

/-- The chunk whose head is read to its end in entering the chunk at the position, if one is. -/
def headRead (source : Source) : List Chunk :=
  match header source with
  | (.ok chunk, _) => [chunk]
  | (.error _, _) => []

/-- The chunk whose head is read to its end in looking for the next one inside another, if one is. -/
def headSought (parent : Chunk) (source : Source) : List Chunk :=
  if parent.finish < source.position + Chunk.headerLength then [] else headRead source

/-- The next chunk inside another is the one whose head is read. -/
theorem header_of_next? (h : next? parent source = (.ok (some chunk), after)) :
    header source = (.ok chunk, after) ∧ headSought parent source = [chunk] := by
  rw [next?, run_bind_of_eq (run_position source)] at h
  unfold headSought headRead
  split at h
  · cases h
  · rename_i hroom
    obtain ⟨found, middle, hheader, h⟩ := run_bind_eq_ok.mp h
    rw [if_neg hroom, hheader]
    split at h <;> cases h
    exact ⟨rfl, rfl⟩

/-- At most one head is read in entering a chunk; it lies at the position, and the data holds it. -/
theorem headRead_cases (source : Source) :
    headRead source = [] ∨ ∃ chunk, headRead source = [chunk] ∧ chunk.offset = source.position ∧
      chunk.IsRegular ∧ chunk.content ≤ source.data.length := by
  unfold headRead
  split
  · rename_i hheader
    exact .inr ⟨_, rfl, head_inside hheader⟩
  · exact .inl rfl

/-- No head is read in looking for the next chunk where the head would end behind the other chunk. -/
theorem headSought_cases (parent : Chunk) (source : Source) :
    headSought parent source = [] ∨ headSought parent source = headRead source ∧
      source.position + Chunk.headerLength ≤ parent.finish := by
  unfold headSought
  split
  · exact .inl rfl
  · rename_i hroom
    exact .inr ⟨rfl, Nat.le_of_not_lt hroom⟩

end StageArchive.Reading
