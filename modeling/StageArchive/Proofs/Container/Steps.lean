import StageArchive.Container.Draft
import StageArchive.Proofs.Outcome
/-!
# A container is a function of the files

Assembling reads files and changes none before the container is put in place. So what is made of a
container depends on what is read alone: `makeInSteps` says how, entry by entry, and `assemble_run` that
it is what assembling comes to, whatever the files are kept in. On a file system `finalize_run` adds the
places where the container goes.
-/

namespace StageArchive.Assembler

/-- What becomes of entries, up to the first fault that fails the container. -/
def dispositions (assembler : Assembler) (look : Path → Except FileFault Bytes)
    (entries : List ChunkEntry) : Except AssemblyFault (List Disposition) :=
  entries.mapM fun entry => assembler.dispose (assembler.outcome look entry)

/-- What becomes of entries when their files are as they are. -/
inductive Disposes (assembler : Assembler) (look : Path → Except FileFault Bytes) :
    List ChunkEntry → List Disposition → Prop
  | nil : Disposes assembler look [] []
  | cons {entry : ChunkEntry} {content : Bytes} {disposition : Disposition}
      {entries : List ChunkEntry} {dispositions : List Disposition}
      (hread : look entry.source = .ok content)
      (hdispose : assembler.dispose (assembler.prepare entry content) = .ok disposition)
      (hothers : Disposes assembler look entries dispositions) :
      Disposes assembler look (entry :: entries) (disposition :: dispositions)

/-- Prepares and writes entries one by one: what became of each, and its offset. -/
def writeEntries (assembler : Assembler) (look : Path → Except FileFault Bytes) (path : Path) :
    List ChunkEntry → Sink → Except AssemblyFault (List (ChunkEntry × Disposition × UInt32) × Sink)
  | [], sink => .ok ([], sink)
  | entry :: entries, sink => do
    let disposition ← assembler.dispose (assembler.outcome look entry)
    let (offset, sink) ← writing path sink (writeDisposition disposition)
    let (others, sink) ← assembler.writeEntries look path entries sink
    pure ((entry, disposition, offset) :: others, sink)

/-- The bytes of the container and the report, when entries are prepared and written one by one. -/
def makeInSteps (assembler : Assembler) (clock : UInt32) (path : Path)
    (look : Path → Except FileFault Bytes) : Except AssemblyFault (Bytes × AssemblyReport) := do
  let (root, sink) ← writing path (.start assembler.config.byteOrder)
    (openContainer assembler.config.byteOrder (assembler.config.headerTimestamp clock)
      (UInt32.ofNat assembler.entries.length))
  let (made, sink) ← assembler.writeEntries look path assembler.entries sink
  let ((bytes, size), _) ← writing path sink (closeContainer root)
  pure (bytes, report path size made)

/-- What assembling on a file system comes to when a container is made in some way: the report and the
changed file system. -/
def conclude (assembler : Assembler) (output : Path) (files : FileSystem)
    (made : Except AssemblyFault (Bytes × AssemblyReport)) :
    Except AssemblyFault (AssemblyReport × FileSystem) := do
  let path := assembler.config.resolveOutput output
  if 2 ^ 32 ≤ assembler.entries.length then throw (.tooManyChunks assembler.entries.length)
  (files.admitsFiles (directoryOf path)).mapError (.inaccessible (directoryOf path))
  let (bytes, report) ← made
  let changed ← (files.place path bytes).mapError (.inaccessible path)
  pure (report, changed)

section Dispositions

variable {assembler : Assembler} {look : Path → Except FileFault Bytes} {entries : List ChunkEntry}

/-- What becomes of the first entry is decided before the others. -/
theorem dispositions_cons (assembler : Assembler) (look : Path → Except FileFault Bytes)
    (entry : ChunkEntry) (entries : List ChunkEntry) :
    assembler.dispositions look (entry :: entries) = (do
      let disposition ← assembler.dispose (assembler.outcome look entry)
      let others ← assembler.dispositions look entries
      return disposition :: others) :=
  List.mapM_cons

/-- An entry whose file cannot be read fails the container under any policy. -/
theorem dispose_outcome_eq_ok {entry : ChunkEntry} {disposition : Disposition} :
    assembler.dispose (assembler.outcome look entry) = .ok disposition ↔
      ∃ content, look entry.source = .ok content ∧
        assembler.dispose (assembler.prepare entry content) = .ok disposition := by
  unfold outcome
  cases look entry.source with
  | error fault =>
      constructor
      · intro h
        cases h
      · rintro ⟨_, hread, -⟩
        cases hread
  | ok content =>
      constructor
      · intro h
        exact ⟨content, rfl, h⟩
      · rintro ⟨_, hread, h⟩
        cases hread
        exact h

/-- Something becomes of all entries when something becomes of each. -/
theorem dispositions_eq_ok {made : List Disposition} :
    assembler.dispositions look entries = .ok made ↔ assembler.Disposes look entries made := by
  induction entries generalizing made with
  | nil =>
      constructor
      · intro h
        cases h
        exact .nil
      · intro h
        cases h
        rfl
  | cons entry entries ih =>
      simp only [dispositions_cons, bind_eq_ok, dispose_outcome_eq_ok]
      constructor
      · rintro ⟨disposition, ⟨content, hread, hdispose⟩, others, hothers, h⟩
        cases h
        exact .cons hread hdispose (ih.mp hothers)
      · intro h
        cases h with
        | cons hread hdispose hothers =>
            exact ⟨_, ⟨_, hread, hdispose⟩, _, ih.mpr hothers, rfl⟩

/-- Something becomes of every entry. -/
theorem Disposes.length_eq {dispositions : List Disposition}
    (h : assembler.Disposes look entries dispositions) : dispositions.length = entries.length := by
  induction h with
  | nil => rfl
  | cons _ _ _ ih => exact congrArg (· + 1) ih

/-- What becomes of entries is determined by their files. -/
theorem Disposes.unique {dispositions others : List Disposition}
    (h : assembler.Disposes look entries dispositions)
    (hothers : assembler.Disposes look entries others) : dispositions = others :=
  Except.ok.inj ((dispositions_eq_ok.mpr h).symm.trans (dispositions_eq_ok.mpr hothers))

end Dispositions

/-- A step of writing to a file succeeds when the step does. -/
theorem writing_eq_ok {α : Type} {path : Path} {sink after : Sink} {step : Writing α} {value : α} :
    writing path sink step = .ok (value, after) ↔ step sink = (.ok value, after) := by
  unfold writing
  rcases step sink with ⟨fault | found, middle⟩
  · exact ⟨nofun, nofun⟩
  · constructor
    · intro h
      cases h
      rfl
    · intro h
      cases h
      rfl

/-- The outcome of writing to a file, with its path in a fault. -/
theorem mapError_writing {α : Type} (path : Path) (sink : Sink) (step : Writing α) :
    (step sink).1.mapError (AssemblyFault.unwritable path) =
      (writing path sink step).map (·.1) := by
  unfold writing
  rcases step sink with ⟨fault | value, after⟩ <;> rfl

section Run

variable {σ : Type} [FileAccess (StateM σ)] {look : σ → Path → Except FileFault Bytes}
  {assembler : Assembler}

/-- What becomes of an entry is decided by reading its file. -/
theorem disposeEntry_run
    (hlook : ∀ path state, (FileAccess.read path : StateM σ _) state = (look state path, state))
    (entry : ChunkEntry) (files : σ) :
    (assembler.disposeEntry entry : ExceptT AssemblyFault (StateM σ) Disposition) files =
      (assembler.dispose (assembler.outcome (look files) entry), files) := by
  rw [disposeEntry, run_mk_of_eq (hlook entry.source files), outcome]
  cases look files entry.source <;> rfl

/-- Entries are prepared and written by reading their files. -/
theorem assembleEntries_run
    (hlook : ∀ path state, (FileAccess.read path : StateM σ _) state = (look state path, state))
    (path : Path) (entries : List ChunkEntry) (sink : Sink) (files : σ) :
    (assembler.assembleEntries path entries sink : ExceptT AssemblyFault (StateM σ) _) files =
      (assembler.writeEntries (look files) path entries sink, files) := by
  induction entries generalizing sink with
  | nil => rfl
  | cons entry entries ih =>
      rw [assembleEntries, writeEntries]
      refine run_bind_unchanged (disposeEntry_run hlook entry files) fun disposition => ?_
      refine run_bind_unchanged rfl fun (offset, middle) => ?_
      exact run_bind_unchanged (ih middle) fun (others, last) => rfl

/-- A container is made by reading the files of its entries. -/
theorem assemble_run
    (hlook : ∀ path state, (FileAccess.read path : StateM σ _) state = (look state path, state))
    (clock : UInt32) (path : Path) (files : σ) :
    (assembler.assemble clock path : ExceptT AssemblyFault (StateM σ) _) files =
      (assembler.makeInSteps clock path (look files), files) := by
  unfold assemble makeInSteps
  refine run_bind_unchanged rfl fun (root, opened) => ?_
  refine run_bind_unchanged (assembleEntries_run hlook path assembler.entries opened files)
    fun (made, filled) => ?_
  exact run_bind_unchanged rfl fun ((bytes, size), last) => rfl

omit [FileAccess (StateM σ)] in
/-- An operation on a file is done with its path in a fault. -/
theorem accessing_run {α : Type} {path : Path} {operation : StateM σ (Except FileFault α)}
    {before after : σ} {result : Except FileFault α} (h : operation before = (result, after)) :
    (accessing path operation : ExceptT AssemblyFault (StateM σ) α) before =
      (result.mapError (.inaccessible path), after) := by
  rw [accessing, run_mk_of_eq h]
  rfl

omit [FileAccess (StateM σ)] in
/-- An operation on a file succeeds with the path as without. -/
theorem accessing_eq_ok {α : Type} {path : Path} {operation : StateM σ (Except FileFault α)}
    {before after : σ} {value : α} :
    (accessing path operation : ExceptT AssemblyFault (StateM σ) α) before = (.ok value, after) ↔
      operation before = (.ok value, after) := by
  rcases hrun : operation before with ⟨outcome, middle⟩
  rw [accessing_run hrun]
  constructor
  · intro h
    obtain ⟨houtcome, hafter⟩ := Prod.mk.inj h
    exact Prod.ext (mapError_eq_ok.mp houtcome) hafter
  · intro h
    obtain ⟨houtcome, hafter⟩ := Prod.mk.inj h
    exact Prod.ext (mapError_eq_ok.mpr houtcome) hafter

/-- Assembling succeeds when files can be created where the container goes, it can be made and its
file put in place. -/
theorem finalize_eq_ok_iff_makeInSteps
    (hlook : ∀ path state, (FileAccess.read path : StateM σ _) state = (look state path, state))
    {clock : UInt32} {output : Path} {before after : σ} {report : AssemblyReport} :
    (assembler.finalize clock output : ExceptT AssemblyFault (StateM σ) AssemblyReport) before =
        (.ok report, after) ↔
      assembler.entries.length < 2 ^ 32 ∧
        ∃ admitted bytes,
          (FileAccess.admitsFiles (directoryOf (assembler.config.resolveOutput output)) :
            StateM σ _) before = (.ok (), admitted) ∧
          assembler.makeInSteps clock (assembler.config.resolveOutput output) (look admitted) =
            .ok (bytes, report) ∧
          (FileAccess.place (assembler.config.resolveOutput output) bytes : StateM σ _) admitted =
            (.ok (), after) := by
  unfold finalize
  by_cases hcount : 2 ^ 32 ≤ assembler.entries.length
  · rw [if_pos hcount]
    constructor
    · intro h
      cases h
    · intro hparts
      obtain ⟨h, -⟩ := hparts
      omega
  · rw [if_neg hcount]
    constructor
    · intro h
      obtain ⟨_, admitted, hadmits, hfiles⟩ := run_bind_eq_ok.mp h
      obtain ⟨⟨bytes, made⟩, _, hmake, hfile⟩ := run_bind_eq_ok.mp hfiles
      rw [assemble_run hlook] at hmake
      obtain ⟨hmade, rfl⟩ := Prod.mk.inj hmake
      obtain ⟨_, _, hplace, hreport⟩ := run_bind_eq_ok.mp hfile
      cases hreport
      exact ⟨Nat.lt_of_not_le hcount, _, bytes, accessing_eq_ok.mp hadmits, hmade,
        accessing_eq_ok.mp hplace⟩
    · intro hparts
      obtain ⟨-, admitted, bytes, hadmits, hmade, hplace⟩ := hparts
      refine run_bind_eq_ok.mpr ⟨(), admitted, accessing_eq_ok.mpr hadmits, ?_⟩
      refine run_bind_eq_ok.mpr ⟨(bytes, report), admitted, ?_, ?_⟩
      · exact (assemble_run hlook ..).trans (Prod.ext hmade rfl)
      · exact run_bind_eq_ok.mpr ⟨(), after, accessing_eq_ok.mpr hplace, rfl⟩

end Run

/-- Assembling on a file system leaves it as it was when it fails. -/
theorem finalize_run (assembler : Assembler) (clock : UInt32) (output : Path)
    (files : FileSystem) :
    (assembler.finalize clock output :
        ExceptT AssemblyFault (StateM FileSystem) AssemblyReport) files =
      settled (assembler.conclude output files
        (assembler.makeInSteps clock (assembler.config.resolveOutput output) files.read)) files := by
  unfold finalize conclude
  dsimp only
  split
  · rfl
  · refine run_bind_settled (accessing_run rfl) fun _ => ?_
    refine run_bind_settled (assemble_run (fun _ _ => rfl) clock _ files) fun (bytes, report) => ?_
    let path := assembler.config.resolveOutput output
    have hplace : (FileAccess.place path bytes : StateM FileSystem _) files =
        FileSystem.change (·.place path bytes) files := rfl
    unfold FileSystem.change at hplace
    dsimp only at hplace
    cases hplaced : files.place path bytes with
    | error fault =>
        rw [hplaced] at hplace
        exact run_bind_of_error (accessing_run hplace)
    | ok changed =>
        rw [hplaced] at hplace
        exact run_bind_of_eq (accessing_run hplace)

end StageArchive.Assembler
