import StageArchive.Proofs.Container.Policy
/-!
# A container appears as a whole or not at all

Nothing but the draft changes while a container grows, whatever of it has reached the file, and reading
the sources does not depend on it. So a run that keeps a draft comes to the same as one that makes the
container first and then puts it in place: `finalizeInSteps_eq`. `finalize_all_or_nothing` says what
either leaves behind.
-/

namespace StageArchive

namespace FileSystem

/-- What is put at a location takes the place of what was put there before. -/
theorem insert_insert (system : FileSystem) (location : Location) (first second : FileEntry) :
    (system.insert location first).insert location second = system.insert location second := by
  simp [insert, List.filter_filter]

/-- A location for a draft: nothing lies there, and what is put there does not change what is read from
some paths. -/
structure IsSpare (system : FileSystem) (location : Location) (paths : List Path) : Prop where
  vacant : ∀ item ∈ system.entries, item.1 ≠ location
  unread : ∀ content, ∀ path ∈ paths,
    (system.insert location (.file content)).read path = system.read path

/-- When a draft is taken away nothing is left of it. -/
theorem IsSpare.erase_insert {system : FileSystem} {location : Location} {paths : List Path}
    (h : system.IsSpare location paths) (entry : FileEntry) :
    (system.insert location entry).erase location = system := by
  have hothers : system.entries.filter (fun other => other.1 ≠ location) = system.entries :=
    List.filter_eq_self.mpr fun item hitem => decide_eq_true (h.vacant item hitem)
  simp only [erase, insert, ne_eq, not_true_eq_false, decide_false, Bool.false_eq_true,
    not_false_eq_true, List.filter_cons_of_neg, List.filter_filter, Bool.and_self]
  rw [show List.filter (fun other => decide ¬other.1 = location) system.entries = system.entries from
    hothers]

/-- One file system comes from another by a change at a single location: the path leads there, its content
is new, and paths that lead elsewhere keep theirs. -/
def Replaces (before after : FileSystem) (path : Path) (content : Bytes) : Prop :=
  ∃ location, before.locate path = .ok location ∧ after.working = before.working ∧
    after.entry? location = some (.file content) ∧
    (∀ other, other ≠ location → after.entry? other = before.entry? other) ∧
    (∀ other, before.locate other = .ok location → after.content? other = some content) ∧
    ∀ other, before.locate other ≠ .ok location → after.content? other = before.content? other

/-- Putting a file in place changes nothing else. -/
theorem replaces_of_place {before after : FileSystem} {path : Path} {content : Bytes}
    (h : before.place path content = .ok after) : before.Replaces after path content := by
  obtain ⟨location, hlocate, hroot, hfile, rfl⟩ := exists_location_of_place h
  refine ⟨location, hlocate, rfl, entry_insert_self hroot _, fun other hother => ?_,
    fun other hother => ?_, fun other hother => ?_⟩
  · exact entry_insert_of_ne hother _
  · exact content?_insert_self hroot hfile hother
  · exact content?_insert_of_ne hroot hfile hother

end FileSystem

/-- A step that keeps a draft does to the container what a step without a draft does, and to the files
nothing else. -/
def DraftPlan.Simulates {α : Type} (plan : DraftPlan) (files : FileSystem)
    (plain : Sink → Except AssemblyFault (α × Sink)) (step : Drafting α) : Prop :=
  ∀ sink moment, ∃ after later,
    step (plan.draft files sink moment) = ((plain sink).map (·.1), plan.draft files after later) ∧
      ∀ value last, plain sink = .ok (value, last) → after = last

namespace DraftPlan

variable {plan : DraftPlan} {files : FileSystem} {α β : Type}

/-- A draft takes the place of the one before it. -/
theorem draft_draft (sink next : Sink) (moment later : Nat) :
    plan.draft (plan.draft files sink moment).files next later = plan.draft files next later := by
  simp only [draft, FileSystem.insert_insert]

/-- Nothing to do leaves the draft. -/
theorem simulates_pure (value : α) :
    plan.Simulates files (fun sink => .ok (value, sink)) (pure value) := by
  intro sink moment
  refine ⟨sink, moment, rfl, fun other last h => ?_⟩
  cases h
  rfl

/-- Steps one after the other. -/
theorem Simulates.bind {plain : Sink → Except AssemblyFault (α × Sink)} {step : Drafting α}
    {next : α → Sink → Except AssemblyFault (β × Sink)} {nextStep : α → Drafting β}
    (hstep : plan.Simulates files plain step)
    (hnext : ∀ value, plan.Simulates files (next value) (nextStep value)) :
    plan.Simulates files (fun sink => plain sink >>= fun (value, last) => next value last)
      (step >>= nextStep) := by
  intro sink moment
  obtain ⟨after, later, hrun, hafter⟩ := hstep sink moment
  show ∃ last latest, _ = ((plain sink >>= fun (value, last) => next value last).map (·.1), _) ∧
    ∀ value final, (plain sink >>= fun (value, last) => next value last) = .ok (value, final) →
      last = final
  cases hplain : plain sink with
  | error fault =>
      rw [hplain] at hrun
      exact ⟨after, later, run_bind_of_error hrun, fun _ _ h => by cases h⟩
  | ok result =>
      obtain ⟨value, last⟩ := result
      obtain rfl := hafter value last hplain
      rw [hplain] at hrun
      obtain ⟨final, latest, hthen, hfinal⟩ := hnext value after later
      exact ⟨final, latest, (run_bind_of_eq hrun).trans hthen, hfinal⟩

/-- Writing to the draft is writing to a file with a path. -/
theorem simulates_drafting (step : Writing α) :
    plan.Simulates files (fun sink => Assembler.writing plan.path sink step)
      (drafting plan step) := by
  intro sink moment
  refine ⟨(step sink).2, moment + 1, Prod.ext ?_ (draft_draft ..), fun value last h => ?_⟩
  · exact Assembler.mapError_writing plan.path sink step
  · rw [Assembler.writing_eq_ok.mp h]

end DraftPlan

namespace Assembler

variable {assembler : Assembler} {files : FileSystem} {plan : DraftPlan}

/-- What becomes of an entry does not depend on the draft. -/
theorem simulates_draftDisposition (assembler : Assembler) {entry : ChunkEntry} {sources : List Path}
    (h : files.IsSpare plan.location sources) (hentry : entry.source ∈ sources) :
    plan.Simulates files
      (fun sink => (assembler.dispose (assembler.outcome files.read entry)).map (·, sink))
      (assembler.draftDisposition entry) := by
  intro sink moment
  have hread : assembler.outcome (plan.draft files sink moment).files.read entry =
      assembler.outcome files.read entry := by
    have hsource : (plan.draft files sink moment).files.read entry.source =
        files.read entry.source := h.unread _ _ hentry
    rw [outcome, outcome, hsource]
  refine ⟨sink, moment, ?_, fun value last h => ?_⟩
  · show (assembler.dispose (assembler.outcome (plan.draft files sink moment).files.read entry),
      plan.draft files sink moment) = _
    rw [hread]
    cases assembler.dispose (assembler.outcome files.read entry) <;> rfl
  · obtain ⟨_, -, heq⟩ := map_eq_ok.mp h
    cases heq
    rfl

/-- Entries are written to the draft as they are written without one. -/
theorem simulates_draftEntries (assembler : Assembler) {entries : List ChunkEntry}
    {sources : List Path} (h : files.IsSpare plan.location sources)
    (hentries : ∀ entry ∈ entries, entry.source ∈ sources) :
    plan.Simulates files (assembler.writeEntries files.read plan.path entries)
      (assembler.draftEntries plan entries) := by
  induction entries with
  | nil => exact DraftPlan.simulates_pure []
  | cons entry entries ih =>
      obtain ⟨hentry, hentries⟩ := List.forall_mem_cons.mp hentries
      have hsteps := (assembler.simulates_draftDisposition h hentry).bind
        fun disposition => (DraftPlan.simulates_drafting (writeDisposition disposition)).bind
          fun offset => (ih hentries).bind
            fun others => DraftPlan.simulates_pure ((entry, disposition, offset) :: others)
      refine (congrArg (plan.Simulates files · _) (funext fun sink => ?_)).mp hsteps
      rw [writeEntries]
      cases assembler.dispose (assembler.outcome files.read entry) <;> rfl

/-- A container that is drafted is the one that is made in steps. -/
theorem draftContainer_run (h : files.IsSpare plan.location (assembler.entries.map (·.source)))
    (clock : UInt32) :
    ∃ after later, assembler.draftContainer clock plan
        (plan.draft files (.start assembler.config.byteOrder) 0) =
      (assembler.makeInSteps clock plan.path files.read, plan.draft files after later) := by
  have hopen := @DraftPlan.simulates_drafting plan files _
    (openContainer assembler.config.byteOrder (assembler.config.headerTimestamp clock)
      (UInt32.ofNat assembler.entries.length))
  -- Each part of the draft follows its part of the pure writer, and so does their sequence.
  have hsteps := hopen.bind fun root => (assembler.simulates_draftEntries h
    fun _ hentry => List.mem_map_of_mem hentry).bind fun made =>
      (DraftPlan.simulates_drafting (closeContainer root)).bind fun closed =>
        DraftPlan.simulates_pure (closed.1, report plan.path closed.2 made)
  obtain ⟨after, later, hrun, -⟩ := hsteps (.start assembler.config.byteOrder) 0
  refine ⟨after, later, hrun.trans (Prod.ext ?_ rfl)⟩
  -- The two differ only in the sink that the pure writer drops at its end.
  unfold makeInSteps
  dsimp only
  rcases writing plan.path (.start assembler.config.byteOrder)
      (openContainer assembler.config.byteOrder (assembler.config.headerTimestamp clock)
        (UInt32.ofNat assembler.entries.length)) with fault | ⟨root, opened⟩
  · rfl
  · show Except.map Prod.fst (assembler.writeEntries files.read plan.path assembler.entries opened
        >>= _) = (assembler.writeEntries files.read plan.path assembler.entries opened >>= _)
    rcases assembler.writeEntries files.read plan.path assembler.entries opened with
      fault | ⟨made, sink⟩
    · rfl
    · show Except.map Prod.fst (writing plan.path sink (closeContainer root) >>= _) =
        (writing plan.path sink (closeContainer root) >>= _)
      cases writing plan.path sink (closeContainer root) <;> rfl

/-- Assembling by way of a draft puts the container in place that is made in steps, and leaves nothing
when that fails. -/
theorem finalizeInSteps_eq {clock : UInt32} {output : Path} {location : Location}
    {reached : Nat → Bytes} (h : files.IsSpare location (assembler.entries.map (·.source))) :
    assembler.finalizeInSteps clock output location reached files =
      settled (assembler.conclude output files
        (assembler.makeInSteps clock (assembler.config.resolveOutput output) files.read)) files := by
  obtain ⟨after, later, hrun⟩ := @draftContainer_run assembler files
    ⟨location, assembler.config.resolveOutput output, reached⟩ h clock
  have herase : (DraftPlan.draft ⟨location, assembler.config.resolveOutput output, reached⟩ files after
      later).files.erase location = files := h.erase_insert _
  unfold finalizeInSteps conclude
  dsimp only
  rw [hrun]
  dsimp only
  rw [herase]
  by_cases hcount : 2 ^ 32 ≤ assembler.entries.length
  · rw [if_pos hcount, if_pos hcount]
    rfl
  · rw [if_neg hcount, if_neg hcount]
    cases files.admitsFiles (directoryOf (assembler.config.resolveOutput output)) with
    | error fault => rfl
    | ok _ =>
        rcases assembler.makeInSteps clock (assembler.config.resolveOutput output) files.read with
          fault | ⟨bytes, report⟩
        · rfl
        · show _ = settled ((files.place (assembler.config.resolveOutput output) bytes).mapError _
            >>= _) files
          dsimp only
          cases files.place (assembler.config.resolveOutput output) bytes <;> rfl

/-- Assembling is all or nothing. When it fails the file system is as before; when it succeeds nothing
has changed but the file that the output path leads to, which is the sealed container even where it was
the source of an entry. The same holds when the container grows in a draft, whatever of the draft has
reached the file at any moment. -/
theorem finalize_all_or_nothing (assembler : Assembler) (clock : UInt32) (output : Path)
    (files : FileSystem) :
    (∀ fault after, (assembler.finalize clock output :
        ExceptT AssemblyFault (StateM FileSystem) AssemblyReport) files = (.error fault, after) →
      after = files) ∧
    (∀ report after, (assembler.finalize clock output :
        ExceptT AssemblyFault (StateM FileSystem) AssemblyReport) files = (.ok report, after) →
      report.output = assembler.config.resolveOutput output ∧
        ∃ bytes, files.Replaces after report.output bytes ∧ after.read report.output = .ok bytes ∧
          assembler.IsSealed files.read bytes report) ∧
    ∀ location reached, files.IsSpare location (assembler.entries.map (·.source)) →
      (∀ fault after,
        assembler.finalizeInSteps clock output location reached files = (.error fault, after) →
          after = files) ∧
      ∀ report after,
        assembler.finalizeInSteps clock output location reached files = (.ok report, after) ↔
          (assembler.finalize clock output :
            ExceptT AssemblyFault (StateM FileSystem) AssemblyReport) files = (.ok report, after) := by
  refine ⟨fun fault after h => ?_, fun report after h => ?_, fun location reached hspare => ?_⟩
  · rw [finalize_run, settled_eq_error] at h
    exact h.2
  · rw [finalize_run, settled_eq_ok] at h
    obtain ⟨-, -, bytes, hmake, hplace⟩ := conclude_eq_ok.mp h
    obtain ⟨made, hdisposes, hbuilds⟩ := makeInSteps_eq_ok.mp hmake
    have houtput : report.output = assembler.config.resolveOutput output := by rw [hbuilds.2.2]
    rw [houtput]
    exact ⟨rfl, bytes, FileSystem.replaces_of_place hplace, FileSystem.read_of_place hplace,
      isSealed_of_builds hdisposes hbuilds⟩
  · rw [finalizeInSteps_eq hspare]
    refine ⟨fun fault after h => (settled_eq_error.mp h).2, fun report after => ?_⟩
    rw [finalize_run]

/-- A location beside the files of the three entries is spare. -/
theorem isSpare_temporary :
    (threeFiles (strandedGroup [0x80])).IsSpare ["w", ".temporary"]
      (threeEntries.entries.map (·.source)) where
  vacant item hitem := by
    have hall : ∀ item ∈ (threeFiles (strandedGroup [0x80])).entries,
        item.1 ≠ ["w", ".temporary"] := by
      simp [threeFiles]
    exact hall item hitem
  unread content path hpath := by
    have hsources : threeEntries.entries.map (·.source) = [⟨"a.mrfl"⟩, ⟨"g.grp"⟩, ⟨"s.set"⟩] := rfl
    rw [hsources] at hpath
    simp only [List.mem_cons, List.not_mem_nil, or_false] at hpath
    rcases hpath with rfl | rfl | rfl <;> rfl

/-- A container that takes the place of one of its own sources: with a group that cannot be linked the
source stays, without the group it becomes the container. -/
theorem finalize_all_or_nothing_source :
    (∀ reached, ∃ fault, (threeEntries.under .abort).finalizeInSteps 5 ⟨"s.set"⟩ ["w", ".temporary"]
        reached (threeFiles (strandedGroup [0x80])) =
      (.error fault, threeFiles (strandedGroup [0x80]))) ∧
    ∃ report after bytes, (∀ reached, (threeEntries.under .skip).finalizeInSteps 5 ⟨"s.set"⟩
        ["w", ".temporary"] reached (threeFiles (strandedGroup [0x80])) = (.ok report, after)) ∧
      (threeFiles (strandedGroup [0x80])).Replaces after ⟨"s.set"⟩ bytes ∧
      (threeEntries.under .skip).IsSealed (threeFiles (strandedGroup [0x80])).read bytes report := by
  obtain ⟨-, -, haborted⟩ := @finalize_all_or_nothing (threeEntries.under .abort) 5 ⟨"s.set"⟩
    (threeFiles (strandedGroup [0x80]))
  obtain ⟨-, hsealed, hskipped⟩ := @finalize_all_or_nothing (threeEntries.under .skip) 5 ⟨"s.set"⟩
    (threeFiles (strandedGroup [0x80]))
  have htakes : (threeEntries.under .skip).TakesOutput 5 ⟨"s.set"⟩
      (threeFiles (strandedGroup [0x80])) :=
    { takesOutput_threeEntries with
      directory := rfl
      place := fun bytes => ⟨_, rfl⟩ }
  refine ⟨fun reached => ?_, ?_⟩
  · obtain ⟨herror, hok⟩ := haborted _ reached isSpare_temporary
    rcases hrun : (threeEntries.under .abort).finalizeInSteps 5 ⟨"s.set"⟩ ["w", ".temporary"] reached
      (threeFiles (strandedGroup [0x80])) with ⟨fault | report, after⟩
    · exact ⟨fault, Prod.ext rfl (herror fault after hrun)⟩
    · have hnone := htakes.abort.exists_finalize_ok_iff.mp ⟨report, after, (hok _ _).mp hrun⟩
      exact absurd ⟨prepare_strandedGroup, nofun⟩
        (hnone _ (List.mem_cons_of_mem _ (List.mem_cons_self ..)) strandedFault)
  · have hnone : ∀ entry ∈ (threeEntries.under .skip).entries, ∀ fault,
        ¬ (threeEntries.under .skip).Fails (threeFiles (strandedGroup [0x80])).read entry fault := by
      intro entry hentry fault hfails
      obtain ⟨first, hfirst⟩ := exists_firstFault_iff.mpr ⟨entry, hentry, fault, hfails⟩
      cases (dispositions_eq_error.mpr hfirst).symm.trans
        (dispositions_eq_ok.mpr disposes_threeEntries)
    obtain ⟨report, after, hrun⟩ := htakes.exists_finalize_ok_iff.mpr hnone
    obtain ⟨houtput, bytes, hreplaces, -, hbytes⟩ := hsealed report after hrun
    have hpath : report.output = ⟨"s.set"⟩ := houtput.trans rfl
    exact ⟨report, after, bytes,
      fun reached => ((hskipped _ reached isSpare_temporary).2 report after).mpr hrun,
      hpath ▸ hreplaces, hbytes⟩

end Assembler

end StageArchive
