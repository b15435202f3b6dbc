import StageArchive.Proofs.Container.Image
/-!
# A container that fails at an entry

Entries are prepared and written one by one, so a chunk that does not fit can fail a container before
an entry that could not be prepared is reached. `Fits` says that none does: then the first entry that
fails is the reason why a container cannot be made.
-/

namespace StageArchive.Assembler

/-- The table of contents fits, and so does the chunk of each entry before the first that fails. -/
structure Fits (assembler : Assembler) (look : Path → Except FileFault Bytes) : Prop where
  count : assembler.entries.length < 2 ^ 32
  contents : contentsLength (UInt32.ofNat assembler.entries.length) < 2 ^ 32
  chunks : ∀ front made, front <+: assembler.entries →
    assembler.dispositions look front = .ok made →
      Disposition.FitFrom assembler.config.byteOrder (contentStart assembler.entries.length) made

/-- When something becomes of every entry, it is enough that all chunks fit. -/
theorem Fits.of_ok {assembler : Assembler} {look : Path → Except FileFault Bytes}
    {made : List Disposition} (hmade : assembler.dispositions look assembler.entries = .ok made)
    (hcount : assembler.entries.length < 2 ^ 32)
    (hcontents : contentsLength (UInt32.ofNat assembler.entries.length) < 2 ^ 32)
    (hfit : Disposition.FitFrom assembler.config.byteOrder (contentStart assembler.entries.length)
      made) : assembler.Fits look where
  count := hcount
  contents := hcontents
  chunks front first hfront hfirst := by
    refine hfit.of_prefix ?_
    obtain ⟨back, hback⟩ := hfront
    rw [← hback, dispositions, List.mapM_append] at hmade
    obtain ⟨_, hsame, hmade⟩ := bind_eq_ok.mp hmade
    obtain ⟨others, -, hmade⟩ := bind_eq_ok.mp hmade
    cases hmade
    cases hfirst.symm.trans hsame
    exact List.prefix_append first others

section Entries

variable {assembler : Assembler} {look : Path → Except FileFault Bytes} {path : Path}

/-- When an entry fails, writing entries one by one fails with its fault, unless one before it does
not fit. -/
theorem writeEntries_of_error {entries : List ChunkEntry} {sink : Sink} {reservation : Reservation}
    {fault : AssemblyFault} (hend : sink.AtEnd) (hreserved : sink.reserved = some reservation)
    (hroom : reservation.entries.length + entries.length ≤ reservation.count.toNat)
    (hfit : ∀ front made, front <+: entries → assembler.dispositions look front = .ok made →
      Disposition.FitFrom sink.order sink.data.length made)
    (h : assembler.dispositions look entries = .error fault) :
    assembler.writeEntries look path entries sink = .error fault := by
  -- The entries before the one that fails are written, and each moves the end of the file on.
  have hfault := mapM_eq_error.mp h
  clear h
  induction hfault generalizing sink reservation with
  | here hentry =>
      rw [writeEntries, hentry]
      rfl
  | @later entry entries fault hpasses hrest ih =>
      cases hdispose : assembler.dispose (assembler.outcome look entry) with
      | error other => exact absurd hdispose (hpasses other)
      | ok disposition =>
          have hcons {front : List ChunkEntry} {made : List Disposition}
              (h : assembler.dispositions look front = .ok made) :
              assembler.dispositions look (entry :: front) = .ok (disposition :: made) := by
            rw [dispositions_cons, hdispose, h]
            rfl
          have hfirst := hfit [entry] [disposition] (List.prefix_append [entry] entries) (hcons rfl)
          rw [List.length_cons] at hroom
          have hwrite : writing path sink (writeDisposition disposition) = .ok _ :=
            writing_eq_ok.mpr ((writeDisposition_eq_ok hend hreserved).mpr
              ⟨hfirst.1, by omega, rfl, rfl⟩)
          let next := withEntries sink reservation [disposition]
          have hlength : next.data.length =
              sink.data.length + (disposition.bytes sink.order).length := by
            rw [← List.flatMap_singleton (·.bytes sink.order) disposition]
            exact List.length_append
          have hothers : assembler.writeEntries look path entries next = .error fault := by
            refine @ih next _ (Sink.atEnd_append sink _) rfl ?_ fun front made hfront hmade => ?_
            · rw [length_entered]
              show reservation.entries.length + 1 + entries.length ≤ reservation.count.toNat
              omega
            · rw [hlength]
              exact (hfit (entry :: front) (disposition :: made)
                ((List.prefix_cons_inj entry).mpr hfront) (hcons hmade)).2
          rw [writeEntries, hdispose]
          show (writing path sink (writeDisposition disposition) >>= _) = _
          rw [hwrite]
          show (assembler.writeEntries look path entries next >>= _) = _
          rw [hothers]
          rfl

/-- Where chunks fit, the first entry that fails is the reason why a container is not made. -/
theorem Fits.makeInSteps_eq_error (h : assembler.Fits look) {clock : UInt32} {fault : AssemblyFault}
    (hfault : assembler.dispositions look assembler.entries = .error fault) :
    assembler.makeInSteps clock path look = .error fault := by
  have hword : (UInt32.ofNat assembler.entries.length).toNat = assembler.entries.length :=
    UInt32.toNat_ofNat_of_lt' h.count
  have hopen : writing path (.start assembler.config.byteOrder)
      (openContainer assembler.config.byteOrder (assembler.config.headerTimestamp clock)
        (UInt32.ofNat assembler.entries.length)) = .ok _ :=
    writing_eq_ok.mpr (openContainer_eq_ok.mpr ⟨h.contents, rfl, rfl⟩)
  have hwrite : assembler.writeEntries look path assembler.entries
      (openedSink assembler.config.byteOrder (assembler.config.headerTimestamp clock)
        (UInt32.ofNat assembler.entries.length)) = .error fault := by
    refine writeEntries_of_error (Sink.atEnd_append _ _) rfl ?_ ?_ hfault
    · show 0 + assembler.entries.length ≤ (UInt32.ofNat assembler.entries.length).toNat
      omega
    · have hstart : (openedSink assembler.config.byteOrder
          (assembler.config.headerTimestamp clock)
          (UInt32.ofNat assembler.entries.length)).data.length =
            contentStart (UInt32.ofNat assembler.entries.length).toNat := length_draft _ _ _
      rw [hstart, hword]
      exact h.chunks
  exact bind_eq_error.mpr (.inr ⟨_, hopen, bind_eq_error.mpr (.inl hwrite)⟩)

end Entries

end StageArchive.Assembler
