import StageArchive.Compilation
import StageArchive.Proofs.Emit.Embedded
import StageArchive.Proofs.Tree.Check
/-!
# What a compilation leaves behind

The files of the entities have different names, none of which is that of the symbol table or of the
manifest. So after a compilation that leaves nothing out, each file has what was emitted for its
entity, and the manifest lists the files in order.
-/

namespace StageArchive

/-- The last two characters of a text, the last one first. -/
def ending (text : String) : List Char :=
  text.toList.reverse.take 2

namespace Compilation

section Names

/-- The file of an entity ends like the extension of its kind. -/
theorem ending_entityFile (kind : ChunkKind) (name : String) :
    ending (entityFile kind name).text = ending kind.extension := by
  cases kind <;> simp [ending, entityFile, ChunkKind.extension]

/-- Files of entities differ when the entities differ in kind or name. -/
theorem entityFile_inj {kind other : ChunkKind} {name otherName : String}
    (h : entityFile kind name = entityFile other otherName) : kind = other ∧ name = otherName := by
  have hending := congrArg (fun path => ending path.text) h
  have hkind : kind = other := by
    rw [ending_entityFile, ending_entityFile] at hending
    revert hending
    cases kind <;> cases other <;> decide
  subst hkind
  have htext : name ++ "." ++ kind.extension = otherName ++ "." ++ kind.extension :=
    congrArg Path.text h
  have hlist := congrArg String.toList htext
  simp only [String.toList_append] at hlist
  have hname := List.append_cancel_right (List.append_cancel_right hlist)
  exact ⟨rfl, String.toList_inj.mp hname⟩

/-- A text that does not end like an extension is not the name of a file with it. -/
theorem entityFile_text_ne {kind : ChunkKind} {text : String}
    (h : ending text ≠ ending kind.extension) (name : String) :
    (entityFile kind name).text ≠ text := by
  intro htext
  rw [← htext] at h
  exact h (ending_entityFile kind name)

/-- The file of an entity is neither the symbol table nor the manifest. -/
theorem entityFile_ne (kind : ChunkKind) (name : String) :
    (entityFile kind name).text ≠ symbolsFile.text ∧
      (entityFile kind name).text ≠ manifestFile.text := by
  cases kind with
  | media | group | set | scene =>
      exact ⟨entityFile_text_ne (by decide) name, entityFile_text_ne (by decide) name⟩

/-- The file of an entity whose name can be that of a file is a plain name. -/
theorem isPlainName_entityFile (kind : ChunkKind) {name : String} (h : isFileStem name) :
    Path.IsPlainName (entityFile kind name).text := by
  obtain ⟨-, -, -, hslash⟩ := Node.isFileStem_iff.mp h
  have hlist : (entityFile kind name).text.toList =
      name.toList ++ ('.' :: kind.extension.toList) := by
    simp [entityFile]
  refine ⟨?_, ?_⟩
  · rw [hlist, List.mem_append]
    intro hparts
    rcases hparts with hname | hextension
    · exact hslash hname
    · revert hextension
      cases kind <;> decide
  · rw [Path.isIdle, Bool.or_eq_false_iff, beq_eq_false_iff_ne, beq_eq_false_iff_ne]
    cases kind with
    | media | group | set | scene =>
        exact ⟨entityFile_text_ne (by decide) name, entityFile_text_ne (by decide) name⟩

/-- The entities below a root are its entities in order of their passes. -/
theorem mem_entities {root : Node} {kind : ChunkKind} {node : Node}
    (h : (kind, node) ∈ entities root) : node ∈ root.descendants ∧ node.kind = kind.node := by
  obtain ⟨found, -, hmem⟩ := List.mem_flatMap.mp h
  obtain ⟨other, hother, heq⟩ := List.mem_map.mp hmem
  cases heq
  obtain ⟨hdescendant, hkind⟩ := List.mem_filter.mp hother
  exact ⟨hdescendant, of_decide_eq_true hkind⟩

/-- The name of every entity can be that of a file when the names of the tree pass. -/
theorem isFileStem_of_mem {root : Node} (hnames : root.checkNames = .ok ()) {kind : ChunkKind}
    {node : Node} (h : (kind, node) ∈ entities root) : isFileStem node.name := by
  obtain ⟨hdescendant, hkind⟩ := mem_entities h
  refine (Node.checkNames_eq_ok.mp hnames).1 node
    (Node.mem_preorder_of_mem_descendants hdescendant) ?_
  rw [hkind]
  cases kind <;> rfl

/-- Different entities have different files when the names of the tree pass. -/
theorem pairwise_entityFile {root : Node} (hnames : root.checkNames = .ok ()) :
    (entities root).Pairwise fun entity other =>
      entityFile entity.1 entity.2.name ≠ entityFile other.1 other.2.name := by
  rw [entities, List.pairwise_flatMap]
  constructor
  · intro kind _
    have hentity : kind.node.isEntity := by
      cases kind <;> rfl
    have hnodup := Node.nodup_names_of_checkNames hnames hentity
    rw [List.Nodup, List.pairwise_map] at hnodup
    rw [List.pairwise_map]
    refine hnodup.imp ?_
    intro node other hdiffer hfile
    exact hdiffer (entityFile_inj hfile).2
  · have hpasses : passes.Pairwise (· ≠ ·) := by decide
    refine hpasses.imp ?_
    intro kind otherKind hdiffer entity hentity other hother hfile
    obtain ⟨node, -, rfl⟩ := List.mem_map.mp hentity
    obtain ⟨otherNode, -, rfl⟩ := List.mem_map.mp hother
    exact hdiffer (entityFile_inj hfile).1

end Names

variable {emitter : Emitter}

/-- The path that the file of an entity is written to. -/
def entityPath (config : Config) (entity : ChunkKind × Node) : Path :=
  (outputDirectory config).join (entityFile entity.1 entity.2.name)

/-- The entry of an entity in the manifest. -/
def entityEntry (entity : ChunkKind × Node) : ChunkEntry :=
  ⟨entity.1, entityFile entity.1 entity.2.name, entity.2.name⟩

/-- What is emitted for a node from the given files, or why nothing is. -/
def outcome (emitter : Emitter) (files : FileMap) (node : Node) : Except EmitFault Bytes :=
  ((emitter.emit node : ExceptT EmitFault (StateM FileMap) Bytes) files).1

/-- Emission has its outcome and changes no files. -/
theorem emit_eq (node : Node) (files : FileMap) :
    (emitter.emit node : ExceptT EmitFault (StateM FileMap) Bytes) files =
      (outcome emitter files node, files) := by
  obtain ⟨_, hemit, -⟩ := @Emitter.agrees_emit emitter files files node fun _ _ => rfl
  rw [outcome, hemit]

/-- The outcome depends on the files that a node embeds. -/
theorem outcome_congr {first second : FileMap} {node : Node}
    (h : ∀ path, node.Embeds emitter.config path →
      first.content? path.key = second.content? path.key) :
    outcome emitter first node = outcome emitter second node := by
  obtain ⟨_, hfirst, hsecond⟩ := Emitter.agrees_emit h
  rw [outcome, outcome, hfirst, hsecond]

/-- An entity may be left out for a fault. -/
def MayLeaveOut (emitter : Emitter) (fault : EmitFault) : Prop :=
  fault.isRecoverable = true ∧ emitter.config.onMissing = .skip

/-- What is reported about an entity that is left out for a fault. -/
def leftOut (entity : ChunkKind × Node) (fault : EmitFault) : SkippedChunk :=
  ⟨entity.1, entity.2.name, fault.message⟩

/-- What emitting entities one after another does: what is emitted for each is written to its path
and gets an entry, and what cannot be emitted is left out, until a fault fails the rest. -/
inductive Runs (emitter : Emitter) : FileMap → List (ChunkKind × Node) →
    Except CompileFault (List ChunkEntry × List SkippedChunk) → FileMap → Prop
  | nil (files : FileMap) : Runs emitter files [] (.ok ([], [])) files
  | written {entity : ChunkKind × Node} {others : List (ChunkKind × Node)} {files after : FileMap}
      {content : Bytes} {result : Except CompileFault (List ChunkEntry × List SkippedChunk)}
      (hemit : outcome emitter files entity.2 = .ok content)
      (hothers : Runs emitter (files.write (entityPath emitter.config entity) content) others
        result after) :
      Runs emitter files (entity :: others)
        (result.map fun (entries, skipped) => (entityEntry entity :: entries, skipped)) after
  | skipped {entity : ChunkKind × Node} {others : List (ChunkKind × Node)} {files after : FileMap}
      {fault : EmitFault} {result : Except CompileFault (List ChunkEntry × List SkippedChunk)}
      (hemit : outcome emitter files entity.2 = .error fault) (hmay : MayLeaveOut emitter fault)
      (hothers : Runs emitter files others result after) :
      Runs emitter files (entity :: others)
        (result.map fun (entries, skipped) => (entries, leftOut entity fault :: skipped)) after
  | failed {entity : ChunkKind × Node} {others : List (ChunkKind × Node)} {files : FileMap}
      {fault : EmitFault} (hemit : outcome emitter files entity.2 = .error fault)
      (hmust : ¬ MayLeaveOut emitter fault) :
      Runs emitter files (entity :: others) (.error (.emit fault)) files

/-- An entity that is emitted gets an entry and its file is written. -/
theorem emitEntity_of_ok {entity : ChunkKind × Node} {before : FileMap} {content : Bytes}
    (h : outcome emitter before entity.2 = .ok content) :
    (emitEntity emitter entity.1 entity.2 : ExceptT CompileFault (StateM FileMap) _) before =
      (.ok (.inl (entityEntry entity)),
        before.write (entityPath emitter.config entity) content) := by
  have hrun : ((emitter.emit entity.2).run : StateM FileMap (Except EmitFault Bytes)) before =
      (.ok content, before) := (emit_eq entity.2 before).trans (by rw [h])
  rw [emitEntity, run_bind_of_eq (run_lift_of_eq hrun)]
  rfl

/-- An entity that is not emitted is left out where it may be, and fails the compilation elsewhere. -/
theorem emitEntity_of_error {entity : ChunkKind × Node} {before : FileMap} {fault : EmitFault}
    (h : outcome emitter before entity.2 = .error fault) :
    (MayLeaveOut emitter fault →
        (emitEntity emitter entity.1 entity.2 : ExceptT CompileFault (StateM FileMap) _) before =
          (.ok (.inr (leftOut entity fault)), before)) ∧
      (¬ MayLeaveOut emitter fault →
        (emitEntity emitter entity.1 entity.2 : ExceptT CompileFault (StateM FileMap) _) before =
          (.error (.emit fault), before)) := by
  have hrun : ((emitter.emit entity.2).run : StateM FileMap (Except EmitFault Bytes)) before =
      (.error fault, before) := (emit_eq entity.2 before).trans (by rw [h])
  rw [emitEntity, run_bind_of_eq (run_lift_of_eq hrun)]
  constructor
  · intro hmay
    have hskip : (fault.isRecoverable && emitter.config.onMissing = .skip) = true := by
      simpa [MayLeaveOut] using hmay
    dsimp only
    rw [if_pos hskip]
    rfl
  · intro hmust
    have habort : ¬ (fault.isRecoverable && emitter.config.onMissing = .skip) = true := by
      simpa [MayLeaveOut] using hmust
    dsimp only
    rw [if_neg habort]
    rfl

/-- Entities are emitted one after another, whatever comes of it. -/
theorem runs_emitAll (entities : List (ChunkKind × Node)) (before : FileMap) :
    Runs emitter before entities
      ((emitAll emitter entities : ExceptT CompileFault (StateM FileMap) _) before).1
      ((emitAll emitter entities : ExceptT CompileFault (StateM FileMap) _) before).2 := by
  induction entities generalizing before with
  | nil => exact .nil before
  | cons entity others ih =>
      have hothers (files : FileMap) {result after}
          (hrun : (emitAll emitter others : ExceptT CompileFault (StateM FileMap) _) files =
            (result, after)) : Runs emitter files others result after := by
        have hruns := ih files
        rwa [hrun] at hruns
      obtain ⟨kind, node⟩ := entity
      -- One rule of the run for each thing that can come of the first entity.
      cases hemit : outcome emitter before node with
      | ok content =>
          have hfirst := @emitEntity_of_ok emitter (kind, node) before content hemit
          rcases hrun : (emitAll emitter others : ExceptT CompileFault (StateM FileMap) _)
            (before.write (entityPath emitter.config (kind, node)) content) with ⟨result, after⟩
          have hruns := @Runs.written emitter (kind, node) _ _ _ _ _ hemit (hothers _ hrun)
          cases result with
          | error fault =>
              rw [emitAll, run_bind_of_eq hfirst, run_bind_of_error hrun]
              exact hruns
          | ok found =>
              rw [emitAll, run_bind_of_eq hfirst, run_bind_of_eq hrun]
              exact hruns
      | error fault =>
          obtain ⟨hskip, hfail⟩ := @emitEntity_of_error emitter (kind, node) before fault hemit
          by_cases hmay : MayLeaveOut emitter fault
          · rcases hrun : (emitAll emitter others : ExceptT CompileFault (StateM FileMap) _)
              before with ⟨result, after⟩
            have hruns := @Runs.skipped emitter (kind, node) _ _ _ _ _ hemit hmay (hothers _ hrun)
            cases result with
            | error fault =>
                rw [emitAll, run_bind_of_eq (hskip hmay), run_bind_of_error hrun]
                exact hruns
            | ok found =>
                rw [emitAll, run_bind_of_eq (hskip hmay), run_bind_of_eq hrun]
                exact hruns
          · rw [emitAll, run_bind_of_error (hfail hmay)]
            exact .failed hemit hmay

/-- Emitting entities changes no other files than theirs, also when it fails. -/
theorem Runs.content_of_ne {before after : FileMap} {entities : List (ChunkKind × Node)}
    {result : Except CompileFault (List ChunkEntry × List SkippedChunk)}
    (h : Runs emitter before entities result after) {key : String × List String}
    (hkey : ∀ entity ∈ entities, key ≠ (entityPath emitter.config entity).key) :
    after.content? key = before.content? key := by
  induction h with
  | nil => rfl
  | written hemit hothers ih =>
      -- The others keep the file, and so does the entity that is written first.
      rw [ih fun other hother => hkey other (List.mem_cons_of_mem _ hother)]
      exact FileMap.content_write_of_ne (hkey _ (List.mem_cons_self ..))
  | skipped hemit hmay hothers ih =>
      exact ih fun other hother => hkey other (List.mem_cons_of_mem _ hother)
  | failed hemit hmust => rfl

/-- What emitting entities one after another does to files when nothing is left out: what is emitted
for each is written to its path. -/
inductive Emits (emitter : Emitter) :
    FileMap → List (ChunkKind × Node) → FileMap → Prop
  | nil (files : FileMap) : Emits emitter files [] files
  | cons {entity : ChunkKind × Node} {others : List (ChunkKind × Node)} {files after : FileMap}
      {content : Bytes}
      (hemit : (emitter.emit entity.2 : ExceptT EmitFault (StateM FileMap) Bytes) files =
        (.ok content, files))
      (hothers : Emits emitter (files.write (entityPath emitter.config entity) content) others
        after) :
      Emits emitter files (entity :: others) after

/-- Entities none of which is left out all get an entry and are written. -/
theorem Runs.emits {entities : List (ChunkKind × Node)} {before after : FileMap}
    {result : Except CompileFault (List ChunkEntry × List SkippedChunk)} {entries : List ChunkEntry}
    (h : Runs emitter before entities result after) (hresult : result = .ok (entries, [])) :
    entries = entities.map entityEntry ∧ Emits emitter before entities after := by
  induction h generalizing entries with
  | nil =>
      cases hresult
      exact ⟨rfl, .nil _⟩
  | @written entity others files after content result hemit hothers ih =>
      obtain ⟨⟨rest, skipped⟩, hrest, heq⟩ := map_eq_ok.mp hresult
      cases heq
      obtain ⟨rfl, hemits⟩ := ih hrest
      exact ⟨rfl, .cons ((emit_eq entity.2 files).trans (by rw [hemit])) hemits⟩
  | skipped hemit hmay hothers ih =>
      obtain ⟨⟨rest, skipped⟩, hrest, heq⟩ := map_eq_ok.mp hresult
      cases heq
  | failed hemit hmust => cases hresult

/-- Entities that are all written are emitted one after another. -/
theorem Emits.runs {entities : List (ChunkKind × Node)} {before after : FileMap}
    (h : Emits emitter before entities after) :
    Runs emitter before entities (.ok (entities.map entityEntry, [])) after := by
  induction h with
  | nil files => exact .nil files
  | cons hemit hothers ih => exact .written (congrArg Prod.fst hemit) ih

/-- Entities that are all emitted get an entry each, and none is left out. -/
theorem Emits.emitAll_eq {entities : List (ChunkKind × Node)} {before after : FileMap}
    (h : Emits emitter before entities after) :
    (emitAll emitter entities : ExceptT CompileFault (StateM FileMap) _) before =
      (.ok (entities.map entityEntry, []), after) := by
  induction h with
  | nil files => rfl
  | @cons entity others files after content hemit hothers ih =>
      have hfirst := @emitEntity_of_ok emitter entity files content (congrArg Prod.fst hemit)
      rw [emitAll, run_bind_of_eq hfirst, run_bind_of_eq ih]
      rfl

/-- Each of some entities with different files has in its file what was emitted for it after those
ahead of it. -/
theorem Emits.exists_content {before after : FileMap} {entities : List (ChunkKind × Node)}
    (h : Emits emitter before entities after)
    (hkeys : entities.Pairwise fun entity other =>
      (entityPath emitter.config entity).key ≠ (entityPath emitter.config other).key)
    {entity : ChunkKind × Node} (hentity : entity ∈ entities) :
    ∃ done others files content, entities = done ++ entity :: others ∧
      Emits emitter before done files ∧
      (emitter.emit entity.2 : ExceptT EmitFault (StateM FileMap) Bytes) files =
        (.ok content, files) ∧
      after.content? (entityPath emitter.config entity).key = some content := by
  induction h with
  | nil => cases hentity
  | @cons first others files after content hemit hothers ih =>
      obtain ⟨hfirst, hkeys⟩ := List.pairwise_cons.mp hkeys
      rcases List.mem_cons.mp hentity with rfl | hentity
      · refine ⟨[], others, files, content, rfl, .nil files, hemit, ?_⟩
        rw [hothers.runs.content_of_ne hfirst]
        exact FileMap.content_write_self ..
      · obtain ⟨done, behind, seen, found, rfl, hdone, hfound, hcontent⟩ := ih hkeys hentity
        exact ⟨first :: done, behind, seen, found, rfl, .cons hemit hdone, hfound, hcontent⟩

/-- A content is what is emitted for an entity of a tree after those ahead of it. -/
def Emitted (emitter : Emitter) (before : FileMap) (entity : ChunkKind × Node) (content : Bytes) :
    Prop :=
  ∃ done others files, entities emitter.root = done ++ entity :: others ∧
    Emits emitter before done files ∧
    (emitter.emit entity.2 : ExceptT EmitFault (StateM FileMap) Bytes) files = (.ok content, files)

/-- What the entities of a tree are emitted with. -/
def emitterOf (resolver : ClassResolver) (config : Config) (root : Node) : Emitter :=
  ⟨root, resolver, .scan resolver root, config⟩

/-- The directory for the files is there already. -/
theorem accessing_createDirectories (path : Path) (before : FileMap) :
    (accessing path (FileAccess.createDirectories path) :
        ExceptT CompileFault (StateM FileMap) Unit) before = (.ok (), before) := by
  rw [accessing, run_mk_of_eq (FileMap.createDirectories_eq path before)]
  rfl

/-- A compilation that succeeds emits the entities of a tree whose names pass, and then writes the
symbol table and the manifest. -/
theorem compile_eq_ok {resolver : ClassResolver} {config : Config} {root : Node}
    {before after : FileMap} {report : CompileReport}
    (h : (compile resolver config root : ExceptT CompileFault (StateM FileMap) CompileReport)
      before = (.ok report, after)) :
    root.checkNames = .ok () ∧ ∃ entries emitted,
      (emitAll (emitterOf resolver config root) (entities root) :
          ExceptT CompileFault (StateM FileMap) _) before =
        (.ok (entries, report.skipped), emitted) ∧
      report.symbols = .scan resolver root ∧
      report.symbolsPath = (outputDirectory config).join symbolsFile ∧
      report.manifest = manifestOf config entries ∧
      report.manifestPath = (outputDirectory config).join manifestFile ∧
      after = (emitted.write report.symbolsPath (Text.utf8 report.symbols.print)).write
        report.manifestPath (Text.utf8 report.manifest.print) := by
  unfold compile at h
  cases hnames : root.checkNames with
  | error fault =>
    rw [hnames] at h
    cases h
  | ok =>
    rw [hnames] at h
    refine ⟨rfl, ?_⟩
    dsimp only at h
    rw [run_bind_of_eq (accessing_createDirectories _ before)] at h
    obtain ⟨⟨entries, skipped⟩, emitted, hemit, h⟩ := run_bind_eq_ok.mp h
    obtain ⟨_, _, hsymbols, h⟩ := run_bind_eq_ok.mp h
    cases hsymbols
    obtain ⟨_, _, hmanifest, h⟩ := run_bind_eq_ok.mp h
    cases hmanifest
    cases h
    exact ⟨entries, emitted, hemit, rfl, rfl, rfl, rfl, rfl⟩

/-- A tree whose names pass and whose entities are all emitted is compiled with nothing left out. -/
theorem exists_compile_of_emits {resolver : ClassResolver} {config : Config} {root : Node}
    {before emitted : FileMap} (hnames : root.checkNames = .ok ())
    (h : Emits (emitterOf resolver config root) before (entities root) emitted) :
    ∃ report after,
      (compile resolver config root : ExceptT CompileFault (StateM FileMap) CompileReport) before =
        (.ok report, after) ∧ report.skipped = [] := by
  have hemit : (emitAll ⟨root, resolver, .scan resolver root, config⟩ (entities root) :
      ExceptT CompileFault (StateM FileMap) _) before = (.ok _, emitted) := h.emitAll_eq
  unfold compile
  rw [hnames]
  dsimp only
  rw [run_bind_of_eq (accessing_createDirectories _ before), run_bind_of_eq hemit]
  exact ⟨_, _, rfl, rfl⟩

/-- A compilation fails for a name that does not pass, before any file is written, or while entities
are emitted. -/
theorem compile_eq_error {resolver : ClassResolver} {config : Config} {root : Node}
    {before after : FileMap} {fault : CompileFault}
    (h : (compile resolver config root : ExceptT CompileFault (StateM FileMap) CompileReport)
      before = (.error fault, after)) :
    (∃ refusal, root.checkNames = .error refusal ∧ fault = .tree refusal ∧ after = before) ∨
      root.checkNames = .ok () ∧
        (emitAll (emitterOf resolver config root) (entities root) :
            ExceptT CompileFault (StateM FileMap) _) before = (.error fault, after) := by
  unfold compile at h
  cases hnames : root.checkNames with
  | error refusal =>
    rw [hnames] at h
    cases h
    exact .inl ⟨refusal, rfl, rfl, rfl⟩
  | ok =>
    rw [hnames] at h
    dsimp only at h
    rw [run_bind_of_eq (accessing_createDirectories _ before)] at h
    refine .inr ⟨rfl, ?_⟩
    rcases hemit : (emitAll ⟨root, resolver, .scan resolver root, config⟩ (entities root) :
      ExceptT CompileFault (StateM FileMap) _) before with ⟨result, emitted⟩
    cases result with
    | error other =>
      rw [run_bind_of_error hemit] at h
      cases h
      exact hemit
    | ok found =>
      -- Behind the entities nothing fails.
      rw [run_bind_of_eq hemit] at h
      cases h

/-- Names that are joined to one directory lead to one place only when they are equal. -/
theorem text_eq_of_key_join {directory first second : Path} (hfirst : Path.IsPlainName first.text)
    (hsecond : Path.IsPlainName second.text)
    (h : (directory.join first).key = (directory.join second).key) : first.text = second.text := by
  have hkeys : (directory.key.1, directory.key.2 ++ [first.text]) =
      (directory.key.1, directory.key.2 ++ [second.text]) :=
    (Path.key_join directory hfirst).symm.trans (h.trans (Path.key_join directory hsecond))
  have hparts := List.append_cancel_left (congrArg Prod.snd hkeys)
  exact (List.cons.inj hparts).1

/-- Different entities have files in different places when the names of the tree pass. -/
theorem pairwise_entityPath {root : Node} (hnames : root.checkNames = .ok ()) (config : Config) :
    (entities root).Pairwise fun entity other =>
      (entityPath config entity).key ≠ (entityPath config other).key := by
  refine (pairwise_entityFile hnames).imp_of_mem ?_
  intro entity other hentity hother hdiffer hkey
  exact hdiffer (congrArg Path.mk (text_eq_of_key_join
    (isPlainName_entityFile entity.1 (isFileStem_of_mem hnames hentity))
    (isPlainName_entityFile other.1 (isFileStem_of_mem hnames hother)) hkey))

/-- The file of an entity is neither in the place of the symbol table nor in that of the manifest. -/
theorem key_entityPath_ne {root : Node} (hnames : root.checkNames = .ok ()) (config : Config)
    {entity : ChunkKind × Node} (hentity : entity ∈ entities root) :
    (entityPath config entity).key ≠ ((outputDirectory config).join symbolsFile).key ∧
      (entityPath config entity).key ≠ ((outputDirectory config).join manifestFile).key := by
  have hplain := isPlainName_entityFile entity.1 (isFileStem_of_mem hnames hentity)
  obtain ⟨hnotSymbols, hnotManifest⟩ := entityFile_ne entity.1 entity.2.name
  constructor
  · intro hkey
    exact hnotSymbols (text_eq_of_key_join hplain ⟨by decide, by decide⟩ hkey)
  · intro hkey
    exact hnotManifest (text_eq_of_key_join hplain ⟨by decide, by decide⟩ hkey)

/-- After a compilation that leaves nothing out the manifest lists all entities and is in its file,
and each entity's file has what was emitted for it. -/
theorem contents_of_compile {resolver : ClassResolver} {config : Config} {root : Node}
    {before after : FileMap} {report : CompileReport}
    (h : (compile resolver config root : ExceptT CompileFault (StateM FileMap) CompileReport)
      before = (.ok report, after))
    (hskipped : report.skipped = []) :
    root.checkNames = .ok () ∧
      report.manifest = manifestOf config ((entities root).map entityEntry) ∧
      report.manifestPath = (outputDirectory config).join manifestFile ∧
      after.content? report.manifestPath.key = some (Text.utf8 report.manifest.print) ∧
      ∀ entity ∈ entities root, ∃ content,
        Emitted (emitterOf resolver config root) before entity content ∧
          after.content? (entityPath config entity).key = some content := by
  obtain ⟨hnames, entries, emitted, hemit, -, hsymbols, hmanifest, hpath, rfl⟩ := compile_eq_ok h
  rw [hskipped] at hemit
  have hruns := @runs_emitAll (emitterOf resolver config root) (entities root) before
  rw [hemit] at hruns
  obtain ⟨rfl, hemits⟩ := hruns.emits rfl
  refine ⟨hnames, hmanifest, hpath, FileMap.content_write_self .., ?_⟩
  intro entity hentity
  -- No file is written over by a later one: neither by an entity nor by the two documents.
  obtain ⟨done, others, files, content, hparts, hdone, hcontent, hfile⟩ :=
    hemits.exists_content (pairwise_entityPath hnames config) hentity
  obtain ⟨hsymbolsKey, hmanifestKey⟩ := key_entityPath_ne hnames config hentity
  refine ⟨content, ⟨done, others, files, hparts, hdone, hcontent⟩, ?_⟩
  rw [hpath, hsymbols, FileMap.content_write_of_ne hmanifestKey,
    FileMap.content_write_of_ne hsymbolsKey]
  exact hfile

end Compilation

end StageArchive
