import StageArchive.Proofs.Compilation
import StageArchive.Proofs.Container.Manifest
import StageArchive.Proofs.Container.Numbering
import StageArchive.Proofs.Symbol.Document
/-!
# A compilation accounts for every entity

Each entity of a tree is either written or left out, and the report of a compilation says which. What
is emitted for an entity must not depend on when that happens, so no file that is written may be one
that a medium embeds. `Runs.isAccount` carries this through a run, entity by entity; the two documents
are then read back as what they were written from.
-/

namespace StageArchive.Compilation

/-- Whether an entity is emitted from the given files. -/
def isEmitted (emitter : Emitter) (files : FileMap) (entity : ChunkKind × Node) : Bool :=
  (outcome emitter files entity.2).isOk

/-- What is reported about an entity that is not emitted from the given files. -/
def leftOut? (emitter : Emitter) (files : FileMap) (entity : ChunkKind × Node) :
    Option SkippedChunk :=
  match outcome emitter files entity.2 with
  | .ok _ => none
  | .error fault => some (leftOut entity fault)

/-- Entries and reports account for some entities: the entries are those of the entities that are
emitted from the files before, and their files have what is emitted; the others are reported and may
all be left out. -/
structure IsAccount (emitter : Emitter) (before after : FileMap)
    (entities : List (ChunkKind × Node)) (entries : List ChunkEntry)
    (skipped : List SkippedChunk) : Prop where
  entries_eq : entries = (entities.filter (isEmitted emitter before)).map entityEntry
  skipped_eq : skipped = entities.filterMap (leftOut? emitter before)
  mayLeaveOut : ∀ entity ∈ entities, ∀ fault,
    outcome emitter before entity.2 = .error fault → MayLeaveOut emitter fault
  content : ∀ entity ∈ entities, ∀ bytes, outcome emitter before entity.2 = .ok bytes →
    after.content? (entityPath emitter.config entity).key = some bytes

namespace IsAccount

variable {emitter : Emitter} {before files after : FileMap} {entity : ChunkKind × Node}
  {entities : List (ChunkKind × Node)} {entries : List ChunkEntry} {skipped : List SkippedChunk}

/-- An account from some files is one from others with the same outcomes. -/
theorem of_outcome_eq (h : IsAccount emitter files after entities entries skipped)
    (hsame : ∀ entity ∈ entities,
      outcome emitter files entity.2 = outcome emitter before entity.2) :
    IsAccount emitter before after entities entries skipped where
  entries_eq := by
    rw [h.entries_eq]
    refine congrArg (List.map entityEntry) (List.filter_congr fun entity hentity => ?_)
    rw [isEmitted, isEmitted, hsame entity hentity]
  skipped_eq := by
    rw [h.skipped_eq]
    refine List.filterMap_congr fun entity hentity => ?_
    rw [leftOut?, leftOut?, hsame entity hentity]
  mayLeaveOut entity hentity := hsame entity hentity ▸ h.mayLeaveOut entity hentity
  content entity hentity := hsame entity hentity ▸ h.content entity hentity

/-- An account holds of files with the same contents for the entities. -/
theorem of_content_eq {last : FileMap}
    (h : IsAccount emitter before after entities entries skipped)
    (hsame : ∀ entity ∈ entities, last.content? (entityPath emitter.config entity).key =
      after.content? (entityPath emitter.config entity).key) :
    IsAccount emitter before last entities entries skipped where
  entries_eq := h.entries_eq
  skipped_eq := h.skipped_eq
  mayLeaveOut := h.mayLeaveOut
  content entity hentity bytes hbytes :=
    (hsame entity hentity).trans (h.content entity hentity bytes hbytes)

/-- An entity that is written comes before those that are accounted for. -/
theorem cons_written {bytes : Bytes}
    (h : IsAccount emitter before after entities entries skipped)
    (hemit : outcome emitter before entity.2 = .ok bytes)
    (hcontent : after.content? (entityPath emitter.config entity).key = some bytes) :
    IsAccount emitter before after (entity :: entities) (entityEntry entity :: entries) skipped where
  entries_eq := by
    have hemitted : isEmitted emitter before entity = true := by
      rw [isEmitted, hemit]
      rfl
    rw [List.filter_cons_of_pos hemitted, List.map_cons, h.entries_eq]
  skipped_eq := by
    have hnone : leftOut? emitter before entity = none := by
      rw [leftOut?, hemit]
    rw [List.filterMap_cons_none hnone, h.skipped_eq]
  mayLeaveOut other hother fault hfault := by
    rcases List.mem_cons.mp hother with rfl | hother
    · rw [hemit] at hfault
      cases hfault
    · exact h.mayLeaveOut other hother fault hfault
  content other hother found hfound := by
    rcases List.mem_cons.mp hother with rfl | hother
    · rw [hemit] at hfound
      cases hfound
      exact hcontent
    · exact h.content other hother found hfound

/-- So does one that is left out. -/
theorem cons_skipped {fault : EmitFault}
    (h : IsAccount emitter before after entities entries skipped)
    (hemit : outcome emitter before entity.2 = .error fault) (hmay : MayLeaveOut emitter fault) :
    IsAccount emitter before after (entity :: entities) entries
      (leftOut entity fault :: skipped) where
  entries_eq := by
    have hemitted : ¬ isEmitted emitter before entity = true := by
      rw [isEmitted, hemit]
      nofun
    rw [List.filter_cons_of_neg hemitted, h.entries_eq]
  skipped_eq := by
    have hsome : leftOut? emitter before entity = some (leftOut entity fault) := by
      rw [leftOut?, hemit]
    rw [List.filterMap_cons_some hsome, h.skipped_eq]
  mayLeaveOut other hother found hfound := by
    rcases List.mem_cons.mp hother with rfl | hother
    · rw [hemit] at hfound
      cases hfound
      exact hmay
    · exact h.mayLeaveOut other hother found hfound
  content other hother bytes hbytes := by
    rcases List.mem_cons.mp hother with rfl | hother
    · rw [hemit] at hbytes
      cases hbytes
    · exact h.content other hother bytes hbytes

end IsAccount

/-- No file that is written for an entry is one that a medium among some entities embeds. -/
def NoneEmbedded (config : Config) (entities : List (ChunkKind × Node))
    (entries : List ChunkEntry) : Prop :=
  ∀ entity ∈ entities, ∀ path, entity.2.Embeds config path → ∀ entry ∈ entries,
    path.key ≠ ((outputDirectory config).join entry.source).key

namespace NoneEmbedded

variable {emitter : Emitter} {config : Config} {entities fewer : List (ChunkKind × Node)}
  {entries less : List ChunkEntry}

/-- Fewer files are not embedded by fewer entities either. -/
theorem mono (h : NoneEmbedded config entities entries) (hentities : fewer ⊆ entities)
    (hentries : less ⊆ entries) : NoneEmbedded config fewer less :=
  fun entity hentity path hpath entry hentry =>
    h entity (hentities hentity) path hpath entry (hentries hentry)

/-- The entities do not read what is written for an entry. -/
theorem outcome_write (h : NoneEmbedded emitter.config entities entries)
    {entity other : ChunkKind × Node} (hentry : entityEntry entity ∈ entries)
    (hother : other ∈ entities) (files : FileMap) (bytes : Bytes) :
    outcome emitter (files.write (entityPath emitter.config entity) bytes) other.2 =
      outcome emitter files other.2 :=
  outcome_congr fun path hpath =>
    FileMap.content_write_of_ne (h other hother path hpath (entityEntry entity) hentry)

end NoneEmbedded

/-- Entities that are emitted one after another are accounted for. -/
theorem Runs.isAccount {emitter : Emitter} {before after : FileMap}
    {entities : List (ChunkKind × Node)}
    {result : Except CompileFault (List ChunkEntry × List SkippedChunk)} {entries : List ChunkEntry}
    {skipped : List SkippedChunk} (h : Runs emitter before entities result after)
    (hresult : result = .ok (entries, skipped))
    (hkeys : entities.Pairwise fun entity other =>
      (entityPath emitter.config entity).key ≠ (entityPath emitter.config other).key)
    (hclear : NoneEmbedded emitter.config entities entries) :
    IsAccount emitter before after entities entries skipped := by
  induction h generalizing entries skipped with
  | nil =>
      cases hresult
      exact ⟨rfl, rfl, nofun, nofun⟩
  | @written entity others files after bytes result hemit hothers ih =>
      obtain ⟨⟨rest, left⟩, hrest, heq⟩ := map_eq_ok.mp hresult
      cases heq
      obtain ⟨hfirst, hkeys⟩ := List.pairwise_cons.mp hkeys
      have haccount := ih hrest hkeys
        (hclear.mono (List.subset_cons_self ..) (List.subset_cons_self ..))
      -- The others do not read what was written for the first, and do not write over it.
      have hsame : ∀ other ∈ others,
          outcome emitter (files.write (entityPath emitter.config entity) bytes) other.2 =
            outcome emitter files other.2 := fun other hother =>
        hclear.outcome_write (List.mem_cons_self ..) (List.mem_cons_of_mem _ hother) files bytes
      have hcontent : after.content? (entityPath emitter.config entity).key = some bytes := by
        rw [hothers.content_of_ne hfirst]
        exact FileMap.content_write_self ..
      exact (haccount.of_outcome_eq hsame).cons_written hemit hcontent
  | skipped hemit hmay hothers ih =>
      obtain ⟨⟨rest, left⟩, hrest, heq⟩ := map_eq_ok.mp hresult
      cases heq
      obtain ⟨-, hkeys⟩ := List.pairwise_cons.mp hkeys
      have haccount := ih hrest hkeys
        (hclear.mono (List.subset_cons_self ..) (List.Subset.refl _))
      exact haccount.cons_skipped hemit hmay
  | failed hemit hmust => cases hresult

/-- Entities none of which is written to an embedded file are all emitted or left out exactly when
those that cannot be emitted from the files before may be left out. -/
theorem Runs.exists_ok_iff {emitter : Emitter} {before after : FileMap}
    {entities : List (ChunkKind × Node)}
    {result : Except CompileFault (List ChunkEntry × List SkippedChunk)}
    (h : Runs emitter before entities result after)
    (hclear : NoneEmbedded emitter.config entities (entities.map entityEntry)) :
    (∃ found, result = .ok found) ↔ ∀ entity ∈ entities, ∀ fault,
      outcome emitter before entity.2 = .error fault → MayLeaveOut emitter fault := by
  induction h with
  | nil => exact ⟨fun _ => nofun, fun _ => ⟨_, rfl⟩⟩
  | @written entity others files after bytes result hemit hothers ih =>
      have hfirst : ∀ fault, outcome emitter files entity.2 = .error fault →
          MayLeaveOut emitter fault := by
        intro fault hfault
        rw [hemit] at hfault
        cases hfault
      -- No later entity embeds the file just written, so what would come of it is as before.
      have hrest : ∀ other ∈ others,
          outcome emitter (files.write (entityPath emitter.config entity) bytes) other.2 =
            outcome emitter files other.2 := fun other hother =>
        hclear.outcome_write (List.mem_cons_self ..) (List.mem_cons_of_mem _ hother) files bytes
      rw [exists_map_eq_ok, ih (hclear.mono (List.subset_cons_self ..) (List.subset_cons_self ..)),
        List.forall_mem_cons, and_iff_right hfirst]
      refine forall₂_congr fun other hother => ?_
      rw [hrest other hother]
  | @skipped entity others files after fault result hemit hmay hothers ih =>
      have hfirst : ∀ other, outcome emitter files entity.2 = .error other →
          MayLeaveOut emitter other := by
        intro other hother
        rw [hemit] at hother
        cases hother
        exact hmay
      rw [exists_map_eq_ok, ih (hclear.mono (List.subset_cons_self ..) (List.subset_cons_self ..)),
        List.forall_mem_cons, and_iff_right hfirst]
  | @failed entity others files fault hemit hmust =>
      exact ⟨nofun, fun h => absurd (h entity (List.mem_cons_self ..) fault hemit) hmust⟩

/-- Entities that are accounted for are each listed once, as an entry or as left out. -/
theorem IsAccount.perm {emitter : Emitter} {before after : FileMap}
    {entities : List (ChunkKind × Node)} {entries : List ChunkEntry} {skipped : List SkippedChunk}
    (h : IsAccount emitter before after entities entries skipped) :
    (entries.map (fun entry => (entry.kind, entry.name)) ++
        skipped.map fun chunk => (chunk.kind, chunk.name)).Perm
      (entities.map fun entity => (entity.1, entity.2.name)) := by
  have hskipped (entities : List (ChunkKind × Node)) :
      (entities.filterMap (leftOut? emitter before)).map (fun chunk => (chunk.kind, chunk.name)) =
        (entities.filter (!isEmitted emitter before ·)).map
          fun entity => (entity.1, entity.2.name) := by
    induction entities with
    | nil => rfl
    | cons entity others ih =>
        cases houtcome : outcome emitter before entity.2 with
        | ok bytes => simpa [leftOut?, isEmitted, houtcome, Except.isOk, Except.toBool] using ih
        | error fault =>
            simpa [leftOut?, isEmitted, houtcome, Except.isOk, Except.toBool, leftOut] using ih
  rw [h.entries_eq, h.skipped_eq, hskipped, List.map_map]
  show ((entities.filter (isEmitted emitter before)).map (fun entity => (entity.1, entity.2.name)) ++
    _).Perm _
  rw [← List.map_append]
  exact (List.filter_append_perm (isEmitted emitter before) entities).map _

section Compile

variable {resolver : ClassResolver} {config : Config} {root : Node} {before after : FileMap}

/-- Entities of a tree whose names pass differ in kind or name. -/
theorem nodup_entities (hnames : root.checkNames = .ok ()) :
    ((entities root).map fun entity => (entity.1, entity.2.name)).Nodup := by
  rw [List.Nodup, List.pairwise_map]
  refine (pairwise_entityFile hnames).imp ?_
  intro entity other hdiffer hsame
  obtain ⟨hkind, hname⟩ := Prod.mk.inj hsame
  exact hdiffer (by rw [hkind, hname])

/-- Among the entities of a tree whose names pass, media come first and have different names. -/
theorem mediaFirst_entities (hnames : root.checkNames = .ok ()) :
    Assembler.MediaFirst ((entities root).map entityEntry) := by
  have horder : (entities root).Pairwise fun first second =>
      second.1 = .media → first.1 = .media := by
    rw [entities, List.pairwise_flatMap]
    constructor
    · intro kind _
      rw [List.pairwise_map]
      exact List.pairwise_of_forall fun _ _ => id
    · have hpasses : passes.Pairwise fun _ other => other ≠ .media := by decide
      refine hpasses.imp ?_
      intro kind other hne entity _ second hsecond hmedia
      obtain ⟨node, -, rfl⟩ := List.mem_map.mp hsecond
      exact absurd hmedia hne
  rw [Assembler.MediaFirst, List.pairwise_map]
  refine horder.imp₂ ?_ (pairwise_entityFile hnames)
  intro first second hfirst hdiffer hmedia
  refine ⟨hfirst hmedia, fun hsame => hdiffer ?_⟩
  have hkind : first.1 = second.1 := (hfirst hmedia).trans hmedia.symm
  have hname : first.2.name = second.2.name := hsame
  rw [hkind, hname]

/-- What a compilation that succeeds reports about a tree, and leaves in files. -/
structure Accounts (resolver : ClassResolver) (config : Config) (root : Node)
    (before after : FileMap) (report : CompileReport) : Prop where
  /-- The entries of the manifest and what is left out are the entities in order, each by whether it
  is emitted; the files of the entries have exactly what is emitted. -/
  account : IsAccount (emitterOf resolver config root) before after (entities root)
    report.manifest.chunks report.skipped
  /-- Every entity is listed once. -/
  once : (report.manifest.chunks.map (fun entry => (entry.kind, entry.name)) ++
      report.skipped.map fun chunk => (chunk.kind, chunk.name)).Perm
    ((entities root).map fun entity => (entity.1, entity.2.name))
  nodup : ((entities root).map fun entity => (entity.1, entity.2.name)).Nodup
  mediaFirst : Assembler.MediaFirst report.manifest.chunks
  symbols_eq : report.symbols = .scan resolver root
  symbols_read : ∃ text, (FileAccess.readText ((outputDirectory config).join symbolsFile) :
      StateM FileMap _) after = (.ok text, after) ∧
    SymbolTable.parse text = .ok (.scan resolver root)
  manifest_read : ∃ text, (FileAccess.readText ((outputDirectory config).join manifestFile) :
      StateM FileMap _) after = (.ok text, after) ∧
    Manifest.parse text = .ok report.manifest
  /-- Wherever the files are looked for, registering the entries fails only for a file that is not
  there, never for a medium that comes too late or is there twice. -/
  registered : ∀ {σ : Type} [FileAccess (StateM σ)] (settings : Config) (place : Path → Path)
    (start finish : σ) (fault : AssemblyFault),
    ((Assembler.start settings).registerAll
        (report.manifest.chunks.map fun entry => { entry with source := place entry.source }) :
      ExceptT AssemblyFault (StateM σ) Assembler) start = (.error fault, finish) →
    ∃ entry ∈ report.manifest.chunks,
      fault = .missingSource entry.kind entry.name (place entry.source)

/-- Entries with media first are registered wherever their files are, unless one is not there. -/
theorem registerAll_eq_error {σ : Type} [FileAccess (StateM σ)] {entries : List ChunkEntry}
    (h : Assembler.MediaFirst entries) (settings : Config) (place : Path → Path) {start finish : σ}
    {fault : AssemblyFault}
    (hrun : ((Assembler.start settings).registerAll
        (entries.map fun entry => { entry with source := place entry.source }) :
      ExceptT AssemblyFault (StateM σ) Assembler) start = (.error fault, finish)) :
    ∃ entry ∈ entries, fault = .missingSource entry.kind entry.name (place entry.source) := by
  have hplaced : Assembler.MediaFirst
      (entries.map fun entry => { entry with source := place entry.source }) :=
    List.pairwise_map.mpr h
  obtain ⟨_, hmem, hfault⟩ := (Assembler.inStep_start settings).of_registerAll_error hplaced hrun
  obtain ⟨entry, hentry, rfl⟩ := List.mem_map.mp hmem
  exact ⟨entry, hentry, hfault⟩

/-- A compilation that succeeds accounts for every entity of the tree. -/
theorem accounts_of_compile {report : CompileReport}
    (h : (compile resolver config root : ExceptT CompileFault (StateM FileMap) CompileReport)
      before = (.ok report, after))
    (hclear : NoneEmbedded config (entities root) report.manifest.chunks) :
    Accounts resolver config root before after report := by
  obtain ⟨hnames, entries, emitted, hemit, hsymbols, hsymbolsPath, hmanifest, hpath, rfl⟩ :=
    compile_eq_ok h
  obtain rfl : entries = report.manifest.chunks := by rw [hmanifest]; rfl
  have hruns := @runs_emitAll (emitterOf resolver config root) (entities root) before
  rw [hemit] at hruns
  have haccount := hruns.isAccount rfl (pairwise_entityPath hnames config) hclear
  have hdocuments : ((outputDirectory config).join symbolsFile).key ≠
      ((outputDirectory config).join manifestFile).key := fun hkey =>
    absurd (text_eq_of_key_join ⟨by decide, by decide⟩ ⟨by decide, by decide⟩ hkey) (by decide)
  rw [hsymbolsPath, hpath, hsymbols]
  have hmedia : Assembler.MediaFirst report.manifest.chunks := by
    rw [haccount.entries_eq]
    exact (mediaFirst_entities hnames).sublist (List.filter_sublist.map _)
  refine ⟨haccount.of_content_eq fun entity hentity => ?_, haccount.perm, nodup_entities hnames,
    hmedia, hsymbols, ?_, ?_,
    fun settings place _ _ _ => registerAll_eq_error hmedia settings place⟩
  · -- The two documents are in other places than the files of the entities.
    obtain ⟨hsymbolsKey, hmanifestKey⟩ := key_entityPath_ne hnames config hentity
    exact (FileMap.content_write_of_ne hmanifestKey).trans
      (FileMap.content_write_of_ne hsymbolsKey)
  · refine ⟨_, FileMap.readText_eq ?_, SymbolTable.parse_print_scan resolver root⟩
    rw [FileMap.content_write_of_ne hdocuments]
    exact FileMap.content_write_self ..
  · exact ⟨_, FileMap.readText_eq (FileMap.content_write_self ..), report.manifest.parse_print⟩

/-- A compilation that fails writes no manifest. -/
theorem content_of_compile_error {fault : CompileFault}
    (h : (compile resolver config root : ExceptT CompileFault (StateM FileMap) CompileReport)
      before = (.error fault, after)) :
    after.content? ((outputDirectory config).join manifestFile).key =
      before.content? ((outputDirectory config).join manifestFile).key := by
  rcases compile_eq_error h with ⟨_, -, -, rfl⟩ | ⟨hnames, hemit⟩
  · rfl
  · have hruns := @runs_emitAll (emitterOf resolver config root) (entities root) before
    rw [hemit] at hruns
    exact hruns.content_of_ne fun entity hentity =>
      (key_entityPath_ne hnames config hentity).2.symm

/-- A compilation succeeds exactly when the names of the tree pass and what cannot be emitted may be
left out. -/
theorem exists_compile_iff
    (hclear : NoneEmbedded config (entities root) ((entities root).map entityEntry)) :
    (∃ report after,
        (compile resolver config root : ExceptT CompileFault (StateM FileMap) CompileReport) before =
          (.ok report, after)) ↔
      root.checkNames = .ok () ∧ ∀ entity ∈ entities root, ∀ fault,
        outcome (emitterOf resolver config root) before entity.2 = .error fault →
          MayLeaveOut (emitterOf resolver config root) fault := by
  have hruns := @runs_emitAll (emitterOf resolver config root) (entities root) before
  rw [← hruns.exists_ok_iff hclear]
  constructor
  · intro hparts
    obtain ⟨report, after, h⟩ := hparts
    obtain ⟨hnames, entries, emitted, hemit, -⟩ := compile_eq_ok h
    exact ⟨hnames, _, congrArg Prod.fst hemit⟩
  · intro hparts
    obtain ⟨hnames, found, hfound⟩ := hparts
    rcases h : (compile resolver config root : ExceptT CompileFault (StateM FileMap) CompileReport)
      before with ⟨fault | report, after⟩
    · rcases compile_eq_error h with ⟨refusal, hrefused, -⟩ | ⟨-, hemit⟩
      · rw [hnames] at hrefused
        cases hrefused
      · rw [hemit] at hfound
        cases hfound
    · exact ⟨report, after, rfl⟩

/-- A compilation that succeeds accounts for every entity of the tree, provided that it writes no file
that a medium embeds; one that fails leaves the place of the manifest as it was. It succeeds exactly
when the names of the tree pass and every entity that cannot be emitted may be left out. -/
theorem compile_accounts (resolver : ClassResolver) (config : Config) (root : Node)
    (before : FileMap) :
    (∀ report after,
      (compile resolver config root : ExceptT CompileFault (StateM FileMap) CompileReport) before =
        (.ok report, after) →
      NoneEmbedded config (entities root) report.manifest.chunks →
      Accounts resolver config root before after report) ∧
    (∀ fault after,
      (compile resolver config root : ExceptT CompileFault (StateM FileMap) CompileReport) before =
        (.error fault, after) →
      after.content? ((outputDirectory config).join manifestFile).key =
        before.content? ((outputDirectory config).join manifestFile).key) ∧
    (NoneEmbedded config (entities root) ((entities root).map entityEntry) →
      ((∃ report after,
          (compile resolver config root : ExceptT CompileFault (StateM FileMap) CompileReport)
            before = (.ok report, after)) ↔
        root.checkNames = .ok () ∧ ∀ entity ∈ entities root, ∀ fault,
          outcome (emitterOf resolver config root) before entity.2 = .error fault →
            MayLeaveOut (emitterOf resolver config root) fault)) := by
  refine ⟨?_, ?_, exists_compile_iff⟩
  · intro report after h hclear
    exact accounts_of_compile h hclear
  · intro fault after h
    exact content_of_compile_error h

end Compile

/-- A group with an actor that has no class. -/
def unclassifiedGroup : Node :=
  .mk ⟨.group, "g", [("class", "G")], 0, [], []⟩ [.mk ⟨.actor, "a", [], 0, [], []⟩ []]

/-- A tree with the group, a set, and a medium that embeds a file. -/
def partlyClassified : Node :=
  .mk ⟨.root, "r", [], 0, [], []⟩
    [unclassifiedGroup, .mk ⟨.set, "s", [("class", "S")], 0, [], []⟩ [],
      .mk ⟨.media, "m", [("class", "M")], 0, [], [⟨0, "raw", ⟨"m.raw"⟩, true⟩]⟩ []]

/-- The file that is embedded. -/
def rawFile : FileMap :=
  FileMap.empty.write ⟨"m.raw"⟩ [1, 2]

/-- Compiles the tree under a policy. -/
def compilePartly (policy : MissingPolicy) : Except CompileFault CompileReport × FileMap :=
  (compile .attributes { Config.standard with onMissing := policy } partlyClassified :
    ExceptT CompileFault (StateM FileMap) CompileReport) rawFile

/-- The medium does not embed a file of an entity. -/
theorem noneEmbedded_partlyClassified (policy : MissingPolicy) :
    NoneEmbedded { Config.standard with onMissing := policy } (entities partlyClassified)
      ((entities partlyClassified).map entityEntry) := by
  rintro entity hentity path ⟨-, source, hsource, -, rfl⟩
  have hkeys : ∀ entity ∈ entities partlyClassified, ∀ source ∈ entity.2.data.media,
      ∀ entry ∈ (entities partlyClassified).map entityEntry,
        (Config.standard.resolveAsset source.path).key ≠
          ((outputDirectory .standard).join entry.source).key := by
    decide
  exact hkeys entity hentity source hsource

/-- The group is left out where that is allowed, and all is accounted for; elsewhere it fails the
compilation, and there is no manifest. -/
theorem compile_accounts_partlyClassified :
    (∃ report after, compilePartly .skip = (.ok report, after) ∧
      report.manifest.chunks = [⟨.media, ⟨"m.mrfl"⟩, "m"⟩, ⟨.set, ⟨"s.set"⟩, "s"⟩] ∧
      report.skipped = [⟨.group, "g", "actor 'a' has no declared class"⟩] ∧
      Accounts .attributes { Config.standard with onMissing := .skip } partlyClassified rawFile after
        report) ∧
    (¬ ∃ report after, compilePartly .abort = (.ok report, after)) ∧
    ∃ fault after, compilePartly .abort = (.error fault, after) ∧
      after.content? ((outputDirectory .standard).join manifestFile).key = none := by
  have hfails : ¬ ∃ report after, compilePartly .abort = (.ok report, after) := by
    intro h
    have hmay := (((compile_accounts _ _ _ _).2.2 (noneEmbedded_partlyClassified .abort)).mp h).2
    have hgroup : (.group, unclassifiedGroup) ∈ entities partlyClassified :=
      List.mem_cons_of_mem _ (List.mem_cons_of_mem _ (List.mem_cons_self ..))
    -- Under this policy nothing may be left out.
    obtain ⟨-, hskip⟩ := hmay _ hgroup (.symbol (.unclassified .actor "a")) rfl
    cases hskip
  refine ⟨?_, hfails, ?_⟩
  · have hparts : (compilePartly .skip).1.toOption.map (fun report =>
          (report.manifest.chunks, report.skipped)) =
        some ([⟨.media, ⟨"m.mrfl"⟩, "m"⟩, ⟨.set, ⟨"s.set"⟩, "s"⟩],
          [⟨.group, "g", "actor 'a' has no declared class"⟩]) := by
      decide +kernel
    rcases hrun : compilePartly .skip with ⟨result, after⟩
    rw [hrun] at hparts
    cases result with
    | error fault => cases hparts
    | ok report =>
        obtain ⟨hchunks, hskipped⟩ := Prod.mk.inj (Option.some.inj hparts)
        have hclear : NoneEmbedded { Config.standard with onMissing := .skip }
            (entities partlyClassified) report.manifest.chunks := by
          refine (noneEmbedded_partlyClassified .skip).mono (List.Subset.refl _) ?_
          rw [hchunks]
          decide
        exact ⟨report, after, rfl, hchunks, hskipped, (compile_accounts _ _ _ _).1 _ _ hrun hclear⟩
  · rcases hrun : compilePartly .abort with ⟨fault | report, after⟩
    · exact ⟨fault, after, rfl, (compile_accounts _ _ _ _).2.1 _ _ hrun⟩
    · exact absurd ⟨report, after, hrun⟩ hfails

end StageArchive.Compilation
