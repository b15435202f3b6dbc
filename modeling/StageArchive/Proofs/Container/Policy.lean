import StageArchive.Proofs.Container.Fitting
import StageArchive.Proofs.Container.Sealed
import StageArchive.Proofs.Entity.Refusal
/-!
# Aborting and skipping

Under either policy the entries are prepared in order. Aborting ends at the first that cannot be
prepared, skipping at the first whose fault is not recoverable; the others are left out, each with a
zero in the table of contents. So skipping comes to the same as aborting unless aborting fails, and an
entity whose bytes do not decode is never left out.
-/

namespace StageArchive.Assembler

/-- The assembler with another policy for what is missing. -/
def under (assembler : Assembler) (policy : MissingPolicy) : Assembler :=
  { assembler with config := { assembler.config with onMissing := policy } }

/-- Assembling on a file system under a policy. -/
def assembleUnder (assembler : Assembler) (policy : MissingPolicy) (clock : UInt32) (output : Path)
    (files : FileSystem) : Except AssemblyFault AssemblyReport × FileSystem :=
  ((assembler.under policy).finalize clock output :
    ExceptT AssemblyFault (StateM FileSystem) AssemblyReport) files

/-- A container can be written wherever it is asked for: files can be created and put in place there,
and offsets and sizes fit, whatever becomes of the entries. -/
structure TakesOutput (assembler : Assembler) (clock : UInt32) (output : Path)
    (files : FileSystem) : Prop where
  directory : files.admitsFiles (directoryOf (assembler.config.resolveOutput output)) = .ok ()
  fits : assembler.Fits files.read
  size : ∀ made, assembler.dispositions files.read assembler.entries = .ok made →
    (image assembler.config.byteOrder (assembler.config.headerTimestamp clock) made).length <
      8 + 2 ^ 32
  place : ∀ bytes, ∃ changed,
    files.place (assembler.config.resolveOutput output) bytes = .ok changed

/-- An entry fails the container: it cannot be prepared, and the policy does not let it be left out. -/
def Fails (assembler : Assembler) (look : Path → Except FileFault Bytes) (entry : ChunkEntry)
    (fault : AssemblyFault) : Prop :=
  assembler.outcome look entry = .error fault ∧
    (assembler.config.onMissing = .skip → fault.isRecoverable = false)

variable {assembler : Assembler} {look : Path → Except FileFault Bytes} {files : FileSystem}
  {clock : UInt32} {output : Path}

/-- A fault fails the container unless the policy lets the entry be left out. -/
theorem dispose_eq_error {result : Except AssemblyFault PreparedChunk} {fault : AssemblyFault} :
    assembler.dispose result = .error fault ↔
      result = .error fault ∧ (assembler.config.onMissing = .skip → fault.isRecoverable = false) := by
  cases result with
  | ok chunk => exact ⟨nofun, fun h => nomatch h.1⟩
  | error other =>
      unfold dispose
      dsimp only
      split
      · rename_i hskip
        obtain ⟨hrecoverable, hpolicy⟩ := Bool.and_eq_true_iff.mp hskip
        constructor
        · intro h
          cases h
        · rintro ⟨hfault, hstops⟩
          cases hfault
          exact absurd (hstops (of_decide_eq_true hpolicy)) (by simp [hrecoverable])
      · rename_i hskip
        constructor
        · intro h
          cases h
          refine ⟨rfl, fun hpolicy => ?_⟩
          simpa [hpolicy] using hskip
        · rintro ⟨hfault, -⟩
          cases hfault
          rfl

/-- Under the aborting policy any fault of an entry fails the container. -/
theorem fails_abort : (assembler.under .abort).Fails look =
    fun entry fault => assembler.outcome look entry = .error fault := by
  funext entry fault
  exact propext ⟨And.left, fun h => ⟨h, nofun⟩⟩

/-- Under the skipping policy a fault that is not recoverable fails the container. -/
theorem fails_skip : (assembler.under .skip).Fails look =
    fun entry fault => assembler.outcome look entry = .error fault ∧
      fault.isRecoverable = false := by
  funext entry fault
  exact propext ⟨fun h => ⟨h.1, h.2 rfl⟩, fun h => ⟨h.1, fun _ => h.2⟩⟩

/-- Under the skipping policy an entry does not fail the container when it is prepared or left out. -/
theorem forall_not_fails_skip {entry : ChunkEntry} :
    (∀ fault, ¬ (assembler.under .skip).Fails look entry fault) ↔
      (∃ chunk, assembler.outcome look entry = .ok chunk) ∨
        ∃ fault, assembler.outcome look entry = .error fault ∧ fault.isRecoverable = true := by
  simp only [fails_skip]
  cases assembler.outcome look entry with
  | ok chunk => exact ⟨fun _ => .inl ⟨chunk, rfl⟩, fun _ _ h => nomatch h.1⟩
  | error fault =>
      constructor
      · intro h
        exact .inr ⟨fault, rfl, Bool.of_not_eq_false fun hfatal => h fault ⟨rfl, hfatal⟩⟩
      · rintro (⟨_, h⟩ | ⟨_, h, hrecoverable⟩) other ⟨hother, hfatal⟩
        · cases h
        · cases h
          cases hother
          cases hrecoverable.symm.trans hfatal

/-- The entries fail with the first fault that fails the container. -/
theorem dispositions_eq_error {entries : List ChunkEntry} {fault : AssemblyFault} :
    assembler.dispositions look entries = .error fault ↔
      FirstFault (assembler.Fails look) entries fault := by
  simp only [dispositions, mapM_eq_error, dispose_eq_error]
  rfl

/-- Under the aborting policy an entry becomes what it becomes under the skipping one, if it is
written. -/
theorem dispose_abort_eq_ok {result : Except AssemblyFault PreparedChunk}
    {disposition : Disposition} :
    (assembler.under .abort).dispose result = .ok disposition ↔
      (assembler.under .skip).dispose result = .ok disposition ∧
        ∃ chunk, disposition = .written chunk := by
  cases result with
  | ok chunk =>
      constructor
      · intro h
        cases h
        exact ⟨rfl, chunk, rfl⟩
      · rintro ⟨h, -⟩
        exact h
  | error fault =>
      have habort : (assembler.under .abort).dispose (.error fault) = .error fault :=
        dispose_eq_error.mpr ⟨rfl, nofun⟩
      rw [habort]
      refine ⟨nofun, ?_⟩
      rintro ⟨h, chunk, rfl⟩
      cases prepare_of_dispose h

/-- Under the aborting policy the entries become what they become under the skipping one, if none is
left out. -/
theorem dispositions_abort_eq_ok {entries : List ChunkEntry} {made : List Disposition} :
    (assembler.under .abort).dispositions look entries = .ok made ↔
      (assembler.under .skip).dispositions look entries = .ok made ∧
        skippedChunks (entries.zip made) = [] := by
  induction entries generalizing made with
  | nil =>
      constructor
      · intro h
        cases h
        exact ⟨rfl, rfl⟩
      · rintro ⟨h, -⟩
        exact h
  | cons entry entries ih =>
      have houtcome : (assembler.under .abort).outcome look entry =
          (assembler.under .skip).outcome look entry := rfl
      simp only [dispositions_cons, bind_eq_ok, houtcome, dispose_abort_eq_ok]
      constructor
      · rintro ⟨_, ⟨hentry, chunk, rfl⟩, others, hothers, h⟩
        cases h
        obtain ⟨hothers, hnone⟩ := ih.mp hothers
        exact ⟨⟨_, hentry, others, hothers, rfl⟩, hnone⟩
      · rintro ⟨⟨disposition, hentry, others, hothers, h⟩, hnone⟩
        cases h
        cases disposition with
        | skipped reason => cases hnone
        | written chunk => exact ⟨_, ⟨hentry, chunk, rfl⟩, others, ih.mpr ⟨hothers, hnone⟩, rfl⟩

/-- Aborting makes a container that skipping makes with no entry left out. -/
theorem makeInSteps_abort_eq_ok {later : UInt32} {path : Path} {bytes : Bytes}
    {report : AssemblyReport}
    (hclock : assembler.config.headerTimestamp clock = assembler.config.headerTimestamp later) :
    (assembler.under .abort).makeInSteps clock path look = .ok (bytes, report) ↔
      (assembler.under .skip).makeInSteps later path look = .ok (bytes, report) ∧
        report.skipped = [] := by
  have hbuilds (made : List Disposition) :
      (assembler.under .abort).Builds clock path made bytes report ↔
        (assembler.under .skip).Builds later path made bytes report := by
    unfold Builds
    rw [show (assembler.under .abort).config.headerTimestamp clock =
      (assembler.under .skip).config.headerTimestamp later from hclock]
    rfl
  have hentries : (assembler.under .abort).entries = (assembler.under .skip).entries := rfl
  simp only [makeInSteps_eq_ok, ← dispositions_eq_ok, hbuilds, hentries, dispositions_abort_eq_ok]
  constructor
  · rintro ⟨made, ⟨hmade, hnone⟩, h⟩
    have hreport := h.2.2
    exact ⟨⟨made, hmade, h⟩, by rw [hreport]; exact hnone⟩
  · rintro ⟨⟨made, hmade, h⟩, hnone⟩
    have hreport := h.2.2
    rw [hreport] at hnone
    exact ⟨made, ⟨hmade, hnone⟩, h⟩

/-- A chunk that cannot be written does not let its entry be left out. -/
theorem not_recoverable_of_writing {α : Type} {path : Path} {sink : Sink} {step : Writing α}
    {fault : AssemblyFault} (h : writing path sink step = .error fault) :
    fault.isRecoverable = false := by
  unfold writing at h
  split at h
  · cases h
  · cases h
    rfl

/-- Under the skipping policy no fault of the entries lets something be left out. -/
theorem not_recoverable_of_writeEntries {path : Path} {entries : List ChunkEntry} {sink : Sink}
    {fault : AssemblyFault} (hpolicy : assembler.config.onMissing = .skip)
    (h : assembler.writeEntries look path entries sink = .error fault) :
    fault.isRecoverable = false := by
  induction entries generalizing sink with
  | nil => cases h
  | cons entry entries ih =>
      rcases bind_eq_error.mp h with hentry | ⟨_, -, h⟩
      · exact (dispose_eq_error.mp hentry).2 hpolicy
      · rcases bind_eq_error.mp h with hwrite | ⟨_, -, h⟩
        · exact not_recoverable_of_writing hwrite
        · rcases bind_eq_error.mp h with hothers | ⟨_, -, h⟩
          · exact ih hothers
          · cases h

/-- Under the skipping policy no fault of a container lets something be left out. -/
theorem not_recoverable_of_makeInSteps {path : Path} {fault : AssemblyFault}
    (hpolicy : assembler.config.onMissing = .skip)
    (h : assembler.makeInSteps clock path look = .error fault) : fault.isRecoverable = false := by
  rcases bind_eq_error.mp h with hopen | ⟨_, -, h⟩
  · exact not_recoverable_of_writing hopen
  · rcases bind_eq_error.mp h with hentries | ⟨_, -, h⟩
    · exact not_recoverable_of_writeEntries hpolicy hentries
    · rcases bind_eq_error.mp h with hclose | ⟨_, -, h⟩
      · exact not_recoverable_of_writing hclose
      · cases h

/-- Assembling succeeds when files can be created where the container goes, it can be made and its
file put in place. -/
theorem conclude_eq_ok {made : Except AssemblyFault (Bytes × AssemblyReport)}
    {report : AssemblyReport} {after : FileSystem} :
    assembler.conclude output files made = .ok (report, after) ↔
      assembler.entries.length < 2 ^ 32 ∧
        files.admitsFiles (directoryOf (assembler.config.resolveOutput output)) = .ok () ∧
        ∃ bytes, made = .ok (bytes, report) ∧
          files.place (assembler.config.resolveOutput output) bytes = .ok after := by
  unfold conclude
  dsimp only
  by_cases hcount : 2 ^ 32 ≤ assembler.entries.length
  · rw [if_pos hcount]
    constructor
    · intro h
      cases h
    · rintro ⟨h, -⟩
      omega
  · rw [if_neg hcount]
    constructor
    · intro h
      obtain ⟨_, hadmits, h⟩ := bind_eq_ok.mp h
      obtain ⟨⟨bytes, _⟩, hmade, h⟩ := bind_eq_ok.mp h
      obtain ⟨changed, hplace, h⟩ := bind_eq_ok.mp h
      cases h
      exact ⟨Nat.lt_of_not_le hcount, mapError_eq_ok.mp hadmits, bytes, hmade,
        mapError_eq_ok.mp hplace⟩
    · rintro ⟨-, hadmits, bytes, hmade, hplace⟩
      exact bind_eq_ok.mpr ⟨(), mapError_eq_ok.mpr hadmits, bind_eq_ok.mpr ⟨_, hmade,
        bind_eq_ok.mpr ⟨after, mapError_eq_ok.mpr hplace, rfl⟩⟩⟩

/-- Only the fault of an entry can let it be left out. -/
theorem eq_error_of_conclude {made : Except AssemblyFault (Bytes × AssemblyReport)}
    {fault : AssemblyFault} (hrecoverable : fault.isRecoverable = true)
    (h : assembler.conclude output files made = .error fault) : made = .error fault := by
  have hfile {α : Type} {path : Path} {operation : Except FileFault α} :
      operation.mapError (.inaccessible path) ≠ .error fault := by
    intro h
    cases operation with
    | ok value => cases h
    | error other =>
        cases h
        cases hrecoverable
  unfold conclude at h
  dsimp only at h
  split at h
  · cases h
    cases hrecoverable
  · rcases bind_eq_error.mp h with h | ⟨_, -, h⟩
    · exact absurd h hfile
    · rcases bind_eq_error.mp h with h | ⟨_, -, h⟩
      · exact h
      · rcases bind_eq_error.mp h with h | ⟨_, -, h⟩
        · exact absurd h hfile
        · cases h

/-- An entry with a fault that is not recoverable fails the container under any policy. -/
theorem exists_finalize_error_of_mem {entry : ChunkEntry} {fault : AssemblyFault}
    (hentry : entry ∈ assembler.entries)
    (h : assembler.outcome files.read entry = .error fault) (hfault : fault.isRecoverable = false) :
    ∃ failure, (assembler.finalize clock output :
      ExceptT AssemblyFault (StateM FileSystem) AssemblyReport) files = (.error failure, files) := by
  have hfails : assembler.Fails files.read entry fault := ⟨h, fun _ => hfault⟩
  obtain ⟨first, hfirst⟩ := exists_firstFault_iff.mpr ⟨entry, hentry, fault, hfails⟩
  rw [finalize_run]
  cases hconclude : assembler.conclude output files
      (assembler.makeInSteps clock (assembler.config.resolveOutput output) files.read) with
  | error failure => exact ⟨failure, rfl⟩
  | ok result =>
      -- A container is only made when something becomes of every entry.
      obtain ⟨-, -, _, hmade, -⟩ := conclude_eq_ok.mp hconclude
      obtain ⟨made, hdisposes, -⟩ := makeInSteps_eq_ok.mp hmade
      cases (dispositions_eq_error.mpr hfirst).symm.trans (dispositions_eq_ok.mpr hdisposes)

/-- A payload or stream that does not decode is a fault that is not recoverable. -/
theorem exists_fatal_of_undecodable {entry : ChunkEntry} {bytes : Bytes}
    (hread : look entry.source = .ok bytes)
    (h : (entry.kind = .group ∨ entry.kind = .scene) ∧
        (∃ fault, EntityPayload.Undecodable assembler.config.byteOrder bytes fault) ∨
      entry.kind = .set ∧ ∃ fault, prepareSet assembler.config.byteOrder bytes = .error fault) :
    ∃ fault, assembler.outcome look entry = .error fault ∧ fault.isRecoverable = false := by
  unfold outcome prepare
  rw [hread]
  dsimp only
  rcases h with ⟨hkind | hkind, fault, h⟩ | ⟨hkind, fault, h⟩
  · rw [hkind, relinkEntity_of_undecodable h]
    exact ⟨_, rfl, rfl⟩
  · rw [hkind, relinkEntity_of_undecodable h]
    exact ⟨_, rfl, rfl⟩
  · rw [hkind, h]
    exact ⟨_, rfl, rfl⟩

namespace TakesOutput

/-- Aborting writes no other containers than skipping does. -/
theorem abort (h : (assembler.under .skip).TakesOutput clock output files) :
    (assembler.under .abort).TakesOutput clock output files where
  directory := h.directory
  fits := ⟨h.fits.count, h.fits.contents, fun front made hfront hmade =>
    h.fits.chunks front made hfront (dispositions_abort_eq_ok.mp hmade).1⟩
  size made hmade := h.size made (dispositions_abort_eq_ok.mp hmade).1
  place := h.place

/-- Where a container can be written, only an entry can fail it. -/
theorem finalize_eq_error (h : assembler.TakesOutput clock output files) {fault : AssemblyFault}
    {after : FileSystem} :
    (assembler.finalize clock output :
        ExceptT AssemblyFault (StateM FileSystem) AssemblyReport) files = (.error fault, after) ↔
      after = files ∧ FirstFault (assembler.Fails files.read) assembler.entries fault := by
  rw [finalize_run, settled_eq_error, ← dispositions_eq_error, and_comm, and_congr_right_iff]
  rintro rfl
  -- The first failing entry decides; if there is none, everything that follows succeeds.
  cases hmade : assembler.dispositions after.read assembler.entries with
  | error first =>
      have hmake : assembler.makeInSteps clock (assembler.config.resolveOutput output) after.read =
          .error first := h.fits.makeInSteps_eq_error hmade
      have hfailed : assembler.conclude output after (.error first) = .error first := by
        unfold conclude
        dsimp only
        rw [if_neg (Nat.not_le.mpr h.fits.count), h.directory]
        rfl
      rw [hmake, hfailed, Except.error.injEq, Except.error.injEq]
  | ok made =>
      have hlength : made.length = assembler.entries.length :=
        (dispositions_eq_ok.mp hmade).length_eq
      obtain ⟨changed, hplace⟩ := h.place (image assembler.config.byteOrder
        (assembler.config.headerTimestamp clock) made)
      have hbuilds : assembler.Builds clock (assembler.config.resolveOutput output) made _ _ :=
        ⟨⟨hlength ▸ h.fits.count, hlength ▸ h.fits.contents,
          hlength ▸ h.fits.chunks _ made List.prefix_rfl hmade, h.size made hmade⟩, rfl, rfl⟩
      have hmake : assembler.makeInSteps clock (assembler.config.resolveOutput output) after.read =
          .ok _ := makeInSteps_eq_ok.mpr ⟨made, dispositions_eq_ok.mp hmade, hbuilds⟩
      rw [conclude_eq_ok.mpr ⟨h.fits.count, h.directory, _, hmake, hplace⟩]
      exact ⟨nofun, nofun⟩

/-- Where a container can be written, it is when no entry fails it. -/
theorem exists_finalize_ok_iff (h : assembler.TakesOutput clock output files) :
    (∃ report after, (assembler.finalize clock output :
        ExceptT AssemblyFault (StateM FileSystem) AssemblyReport) files = (.ok report, after)) ↔
      ∀ entry ∈ assembler.entries, ∀ fault, ¬ assembler.Fails files.read entry fault := by
  constructor
  · rintro ⟨report, after, hok⟩ entry hentry fault hfails
    obtain ⟨first, hfirst⟩ := exists_firstFault_iff.mpr ⟨entry, hentry, fault, hfails⟩
    cases hok.symm.trans (h.finalize_eq_error.mpr ⟨rfl, hfirst⟩)
  · intro hnone
    rcases hrun : (assembler.finalize clock output :
        ExceptT AssemblyFault (StateM FileSystem) AssemblyReport) files with ⟨fault | report, after⟩
    · obtain ⟨entry, hentry, other, hother⟩ :=
        exists_firstFault_iff.mp ⟨fault, (h.finalize_eq_error.mp hrun).2⟩
      exact absurd hother (hnone entry hentry other)
    · exact ⟨report, after, rfl⟩

end TakesOutput

/-- Skipping comes to the same as aborting, except where aborting fails. With one time in the header,
aborting succeeds exactly when skipping leaves nothing out, with the same report and the same files;
skipping never fails for a fault that lets an entry be left out. Where a container can be written,
aborting fails with the fault of the first entry that cannot be prepared and skipping with that of the
first whose fault is not recoverable, so that it succeeds when there is no such entry; and either comes
to preparing and writing the entries one by one. -/
theorem assembleUnder_policies (assembler : Assembler) {clock later : UInt32} (output : Path)
    (files : FileSystem)
    (hclock : assembler.config.headerTimestamp clock = assembler.config.headerTimestamp later) :
    (∀ report after,
      assembler.assembleUnder .abort clock output files = (.ok report, after) ↔
        assembler.assembleUnder .skip later output files = (.ok report, after) ∧
          report.skipped = []) ∧
    (∀ fault after, assembler.assembleUnder .skip clock output files = (.error fault, after) →
      fault.isRecoverable = false) ∧
    ((assembler.under .skip).TakesOutput clock output files →
      (∀ fault after,
        assembler.assembleUnder .abort clock output files = (.error fault, after) ↔
          after = files ∧ FirstFault (fun entry fault =>
            assembler.outcome files.read entry = .error fault) assembler.entries fault) ∧
      (∀ fault after,
        assembler.assembleUnder .skip clock output files = (.error fault, after) ↔
          after = files ∧ FirstFault (fun entry fault =>
            assembler.outcome files.read entry = .error fault ∧ fault.isRecoverable = false)
              assembler.entries fault) ∧
      ((∃ report after,
        assembler.assembleUnder .skip clock output files = (.ok report, after)) ↔
          ∀ entry ∈ assembler.entries,
            (∃ chunk, assembler.outcome files.read entry = .ok chunk) ∨
              ∃ fault, assembler.outcome files.read entry = .error fault ∧
                fault.isRecoverable = true) ∧
      ∀ policy, assembler.assembleUnder policy clock output files =
        settled ((assembler.under policy).conclude output files
          ((assembler.under policy).makeInSteps clock (assembler.config.resolveOutput output)
            files.read)) files) := by
  refine ⟨fun report after => ?_, fun fault after h => ?_, fun htakes => ?_⟩
  · unfold assembleUnder
    rw [finalize_run, finalize_run, settled_eq_ok, settled_eq_ok, conclude_eq_ok, conclude_eq_ok]
    constructor
    · rintro ⟨hcount, hadmits, bytes, hmake, hplace⟩
      obtain ⟨hmake, hnone⟩ := (makeInSteps_abort_eq_ok hclock).mp hmake
      exact ⟨⟨hcount, hadmits, bytes, hmake, hplace⟩, hnone⟩
    · rintro ⟨⟨hcount, hadmits, bytes, hmake, hplace⟩, hnone⟩
      exact ⟨hcount, hadmits, bytes, (makeInSteps_abort_eq_ok hclock).mpr ⟨hmake, hnone⟩, hplace⟩
  · unfold assembleUnder at h
    rw [finalize_run, settled_eq_error] at h
    by_contra hrecoverable
    have hrecoverable := Bool.not_eq_false _ ▸ hrecoverable
    have hmake := eq_error_of_conclude hrecoverable h.1
    rw [not_recoverable_of_makeInSteps rfl hmake] at hrecoverable
    cases hrecoverable
  · have habort := @htakes.abort.finalize_eq_error
    have hskip := @htakes.finalize_eq_error
    rw [fails_abort] at habort
    rw [fails_skip] at hskip
    have hwritten := htakes.exists_finalize_ok_iff
    simp only [forall_not_fails_skip] at hwritten
    refine ⟨@habort, @hskip, hwritten, fun policy => ?_⟩
    exact (assembler.under policy).finalize_run clock output files

/-- The file of a group that refers to the medium `m`, with what follows the reference. -/
def strandedGroup (rest : Bytes) : Bytes :=
  EntityPayload.encode .big ⟨1, 0⟩ (Opcode.copyMediaRef.toByte :: rest) ["m"]

/-- The files of a medium, a group that refers to another medium, and a set. -/
def threeFiles (group : Bytes) : FileSystem :=
  ⟨[(["w"], .directory), (["w", "a.mrfl"], .file oddMedia), (["w", "g.grp"], .file group),
    (["w", "s.set"], .file bareSet)], ["w"]⟩

/-- A container with the medium, the group and the set, at a fixed time. -/
def threeEntries : Assembler :=
  ⟨{ Config.standard with timestamp := some 9 },
    [⟨.media, ⟨"a.mrfl"⟩, "a"⟩, ⟨.group, ⟨"g.grp"⟩, "g"⟩, ⟨.set, ⟨"s.set"⟩, "s"⟩], .ofList ["a"]⟩

/-- The group is taken apart, whatever follows the reference. -/
theorem decode_strandedGroup {rest : Bytes}
    (hfits : EntityPayload.tableOffset ⟨1, 0⟩ (Opcode.copyMediaRef.toByte :: rest) < 2 ^ 32) :
    ∃ payload, EntityPayload.decode .big (strandedGroup rest) = .ok payload ∧
      payload.stream = Opcode.copyMediaRef.toByte :: rest ∧ payload.names = ["m"] :=
  ⟨_, EntityPayload.decode_encode hfits (IndexCode.endIndex_cons (by decide))
    (NameTable.decode_encode _ (by decide) (by decide)), rfl, rfl⟩

/-- The instructions of the group when its stream ends behind the reference. -/
def strandedInstructions : List Instruction :=
  [⟨0, .copyMediaRef, some ⟨.asset, .index 0, 0⟩, [0x8d]⟩, ⟨1, .finish, none, [0x80]⟩]

/-- The stream of the group is read. -/
theorem decodeStream_stranded : decodeStream .big [0x8d, 0x80] = .ok strandedInstructions := by
  decide +kernel

/-- The group cannot be linked without its medium. -/
theorem relinkEntity_strandedGroup : relinkEntity .big (.ofList ["a"]) (strandedGroup [0x80]) =
    .error (.unresolvedAsset "m") := by
  obtain ⟨payload, hpayload, hstream, hnames⟩ := @decode_strandedGroup [0x80] (by decide)
  refine (relinkEntity_eq_error_of_ne hpayload (hstream ▸ decodeStream_stranded) (by nofun)).mpr ?_
  rw [hnames]
  exact .here (.missing rfl (by decide))

/-- The fault of a group without its medium. -/
def strandedFault : AssemblyFault :=
  .relink .group "g" (.unresolvedAsset "m")

/-- What becomes of the three when a group may be left out. -/
def threeDispositions : List Disposition :=
  [.written (.whole oddMedia), .skipped strandedFault.message,
    .written (.body .set (bareSet.drop 4))]

/-- The group cannot be prepared. -/
theorem prepare_strandedGroup :
    threeEntries.prepare ⟨.group, ⟨"g.grp"⟩, "g"⟩ (strandedGroup [0x80]) = .error strandedFault := by
  simp only [prepare, threeEntries, Config.standard, relinkEntity_strandedGroup, strandedFault]

/-- The set is prepared. -/
theorem prepare_bareSet : threeEntries.prepare ⟨.set, ⟨"s.set"⟩, "s"⟩ bareSet =
    .ok (.body .set (bareSet.drop 4)) := by
  simp only [prepare, threeEntries, Config.standard, prepareSet_bareSet]

/-- The group is left out. -/
theorem disposes_threeEntries :
    (threeEntries.under .skip).Disposes (threeFiles (strandedGroup [0x80])).read
      threeEntries.entries threeDispositions := by
  have hgroup : (threeEntries.under .skip).dispose
      (threeEntries.prepare ⟨.group, ⟨"g.grp"⟩, "g"⟩ (strandedGroup [0x80])) =
        .ok (.skipped strandedFault.message) := by
    rw [prepare_strandedGroup]
    rfl
  have hset : (threeEntries.under .skip).dispose
      (threeEntries.prepare ⟨.set, ⟨"s.set"⟩, "s"⟩ bareSet) =
        .ok (.written (.body .set (bareSet.drop 4))) := by
    rw [prepare_bareSet]
    rfl
  exact .cons rfl rfl (.cons rfl hgroup (.cons rfl hset .nil))

/-- The container with the medium and the set can be written. -/
theorem takesOutput_threeEntries :
    (threeEntries.under .skip).TakesOutput 5 ⟨"o.ppr"⟩ (threeFiles (strandedGroup [0x80])) where
  directory := rfl
  fits := by
    refine .of_ok (dispositions_eq_ok.mpr disposes_threeEntries) (by decide) (by decide)
      ⟨⟨by decide, trivial⟩, trivial, ⟨by decide, ?_⟩, trivial⟩
    show List.length _ < _
    decide
  size made hmade := by
    cases (dispositions_eq_ok.mp hmade).unique disposes_threeEntries
    decide +kernel
  place bytes := ⟨_, rfl⟩

/-- A group without its medium fails the container when aborting and is left out when skipping. -/
theorem assembleUnder_policies_stranded :
    threeEntries.assembleUnder .abort 5 ⟨"o.ppr"⟩ (threeFiles (strandedGroup [0x80])) =
        (.error strandedFault, threeFiles (strandedGroup [0x80])) ∧
      (∃ report after, threeEntries.assembleUnder .skip 5 ⟨"o.ppr"⟩
        (threeFiles (strandedGroup [0x80])) = (.ok report, after)) ∧
      ∀ report after, threeEntries.assembleUnder .skip 3 ⟨"o.ppr"⟩
        (threeFiles (strandedGroup [0x80])) = (.ok report, after) → report.skipped ≠ [] := by
  obtain ⟨hsame, -, htakes⟩ := @assembleUnder_policies threeEntries 5 3 ⟨"o.ppr"⟩
    (threeFiles (strandedGroup [0x80])) rfl
  obtain ⟨habort, -, hskip, -⟩ := htakes takesOutput_threeEntries
  have hfirst : threeEntries.assembleUnder .abort 5 ⟨"o.ppr"⟩ (threeFiles (strandedGroup [0x80])) =
      (.error strandedFault, threeFiles (strandedGroup [0x80])) :=
    (habort _ _).mpr ⟨rfl, .later (fun _ h => nomatch h) (.here prepare_strandedGroup)⟩
  refine ⟨hfirst, hskip.mpr ?_, fun report after hok hnone => ?_⟩
  · intro entry hentry
    rcases List.mem_cons.mp hentry with rfl | hentry
    · exact .inl ⟨_, rfl⟩
    · rcases List.mem_cons.mp hentry with rfl | hentry
      · exact .inr ⟨_, prepare_strandedGroup, rfl⟩
      · cases List.mem_singleton.mp hentry
        exact .inl ⟨_, prepare_bareSet⟩
  · cases hfirst.symm.trans ((hsame report after).mpr ⟨hok, hnone⟩)

/-- An entity whose bytes do not decode is refused for that and nothing else, whatever media there
are, and fails the container it is registered for, as a set does. One that decodes is refused for the
first of its numbers that cannot be resolved. When there is none it is linked, unless the linked payload
is too long for the offset in it. So it may be left out exactly when it decodes and the first number that
cannot be resolved is within its name table. -/
theorem relinkEntity_classified (order : ByteOrder) (bytes : Bytes) :
    (∀ assets fault, relinkEntity order assets bytes = .error (.stream fault) ↔
      EntityPayload.Undecodable order bytes fault) ∧
    (∀ payload original, EntityPayload.decode order bytes = .ok payload →
      payload.instructions order = .ok original →
        assetOperands original = (assetNumbers original).map some ∧
        ∀ assets,
          (∀ fault, fault ≠ .payloadTooLong →
            (relinkEntity order assets bytes = .error fault ↔
              FirstFault (Unresolved payload.names assets) (assetNumbers original) fault)) ∧
          (relinkEntity order assets bytes = .error .payloadTooLong ↔
            payload.HasMedia assets original ∧
              2 ^ 32 ≤ EntityPayload.tableOffset payload.header
                (streamBytes (payload.linkedInstructions assets original))) ∧
          ∀ linked, relinkEntity order assets bytes = .ok linked ↔
            payload.HasMedia assets original ∧
              EntityPayload.tableOffset payload.header
                (streamBytes (payload.linkedInstructions assets original)) < 2 ^ 32 ∧
              linked = EntityPayload.encode order payload.header
                (streamBytes (payload.linkedInstructions assets original)) []) ∧
    (∀ assets,
      (∃ fault, relinkEntity order assets bytes = .error fault ∧ fault.isRecoverable = true) ↔
        EntityPayload.LacksMedium order assets bytes) ∧
    ∀ (assembler : Assembler) (clock : UInt32) (output : Path) (files : FileSystem),
      assembler.config.byteOrder = order → ∀ entry ∈ assembler.entries,
        files.read entry.source = .ok bytes →
        ((entry.kind = .group ∨ entry.kind = .scene) ∧
            (∃ fault, EntityPayload.Undecodable order bytes fault) ∨
          entry.kind = .set ∧ ∃ fault, prepareSet order bytes = .error fault) →
        ∃ failure, assembler.assembleUnder .skip clock output files = (.error failure, files) := by
  refine ⟨fun assets fault => relinkEntity_eq_error_stream, fun payload original hpayload hstream => ?_,
    fun assets => exists_recoverable_iff, fun assembler clock output files horder entry hentry hread h =>
      ?_⟩
  · exact ⟨assetOperands_eq_map (decodeStream_eq_ok_iff.mp hstream).1, fun assets =>
      ⟨fun fault => relinkEntity_eq_error_of_ne hpayload hstream,
        relinkEntity_eq_error_payloadTooLong hpayload hstream,
        fun linked => relinkEntity_eq_ok_iff hpayload hstream⟩⟩
  · obtain ⟨fault, hfault, hfatal⟩ := exists_fatal_of_undecodable hread (horder ▸ h)
    exact @exists_finalize_error_of_mem (assembler.under .skip) files clock output entry fault hentry
      hfault hfatal

/-- A fault behind a reference that cannot be resolved comes first. -/
theorem relinkEntity_classified_stranded :
    (∀ assets, relinkEntity .big assets (strandedGroup [0x9f]) =
      .error (.stream (.unknownOpcode 0x9f 1))) ∧
    (∃ failure, threeEntries.assembleUnder .skip 5 ⟨"o.ppr"⟩ (threeFiles (strandedGroup [0x9f])) =
      (.error failure, threeFiles (strandedGroup [0x9f]))) ∧
    ∀ assets : NameIndex, "m" ∉ assets.names →
      relinkEntity .big assets (strandedGroup [0x80]) = .error (.unresolvedAsset "m") := by
  obtain ⟨broken, hbroken, hbytes, -⟩ := @decode_strandedGroup [0x9f] (by decide)
  have hfault : EntityPayload.Undecodable .big (strandedGroup [0x9f]) (.unknownOpcode 0x9f 1) := by
    refine .stream hbroken ?_
    rw [EntityPayload.instructions, hbytes]
    decide +kernel
  obtain ⟨hrefused, -, -, hfails⟩ := relinkEntity_classified .big (strandedGroup [0x9f])
  obtain ⟨-, hnumbers, -⟩ := relinkEntity_classified .big (strandedGroup [0x80])
  refine ⟨fun assets => (hrefused assets _).mpr hfault, ?_, fun assets hnone => ?_⟩
  · exact hfails threeEntries 5 ⟨"o.ppr"⟩ _ rfl ⟨.group, ⟨"g.grp"⟩, "g"⟩ (by decide) rfl
      (.inl ⟨.inl rfl, _, hfault⟩)
  · obtain ⟨payload, hpayload, hstream, hnames⟩ := @decode_strandedGroup [0x80] (by decide)
    obtain ⟨-, hnumbers⟩ := hnumbers _ _ hpayload (hstream ▸ decodeStream_stranded)
    rw [hnames] at hnumbers
    exact ((hnumbers assets).1 (.unresolvedAsset "m") nofun).mpr (.here (.missing rfl hnone))

/-- An entity that decodes and all of whose numbers can be resolved is not linked for that alone: the
linked payload of very many references can be too long. -/
theorem not_linked_of_resolved :
    ¬ ∀ (order : ByteOrder) (assets : NameIndex) (bytes : Bytes) (payload : EntityPayload)
      (original : List Instruction), EntityPayload.decode order bytes = .ok payload →
        payload.instructions order = .ok original →
        (∀ number ∈ assetNumbers original, ∀ fault, ¬ Unresolved payload.names assets number fault) →
        ∃ linked, relinkEntity order assets bytes = .ok linked := by
  intro hclaim
  obtain ⟨encoder, payload, original, -, -, hpayload, hstream, hmedia, hlength⟩ :=
    @exists_hasMedia_references (2 ^ 31) (by decide) (by decide)
  obtain ⟨linked, hlinked⟩ := hclaim .big (.ofList ["b", "a"]) _ payload original hpayload hstream
    fun number hnumber => forall_not_unresolved_iff.mpr (hmedia number hnumber)
  obtain ⟨-, hfits, -⟩ := (relinkEntity_eq_ok_iff hpayload hstream).mp hlinked
  exact absurd hfits (Nat.not_lt.mpr (Nat.le_trans (by decide) hlength))

end StageArchive.Assembler
