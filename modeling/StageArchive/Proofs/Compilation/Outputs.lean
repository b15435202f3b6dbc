import StageArchive.Proofs.Compilation
import StageArchive.Proofs.Tree.Names
/-!
# Where a compilation writes

A tree whose names pass has a file of its own for each entity. `files_apart` says which names pass and that
the files then differ from each other and from the two documents and the container. Each lies directly in
the output directory, and a compilation changes no other file.
-/

namespace StageArchive.Compilation

/-- The file of an entity is none of the files that every compilation has. -/
theorem entityFile_notMem (kind : ChunkKind) (name : String) :
    entityFile kind name ∉ [symbolsFile, manifestFile, containerFile] := by
  have hcontainer : (entityFile kind name).text ≠ containerFile.text :=
    entityFile_text_ne (by cases kind <;> decide) name
  obtain ⟨hsymbols, hmanifest⟩ := entityFile_ne kind name
  simp only [List.mem_cons, List.not_mem_nil, or_false, not_or]
  exact ⟨fun h => hsymbols (congrArg Path.text h), fun h => hmanifest (congrArg Path.text h),
    fun h => hcontainer (congrArg Path.text h)⟩

/-- What is emitted as a file is an entity. -/
theorem isEntity_node (kind : ChunkKind) : kind.node.isEntity := by
  cases kind <;> rfl

/-- Entities among nodes whose names pass have different files. -/
theorem pairwise_entityFile_of_namesPass {nodes : List Node} (h : NamesPass nodes) :
    nodes.Pairwise fun node other => ∀ kind otherKind : ChunkKind,
      node.kind = kind.node → other.kind = otherKind.node →
        entityFile kind node.name ≠ entityFile otherKind other.name := by
  refine h.apart.imp ?_
  intro node other hdiffer kind otherKind hnode hother hfile
  obtain ⟨rfl, hname⟩ := entityFile_inj hfile
  exact hdiffer (hnode ▸ isEntity_node kind) (hnode.trans hother.symm) hname

/-- A file is one that a compilation may write: that of an entity, the symbol table or the manifest. -/
def IsOutput (root : Node) (file : Path) : Prop :=
  file ∈ [symbolsFile, manifestFile] ∨
    ∃ entity ∈ entities root, file = entityFile entity.1 entity.2.name

/-- When the names of a tree pass, all that a compilation may write are plain names. -/
theorem IsOutput.isPlainName {root : Node} {file : Path} (h : IsOutput root file)
    (hnames : root.checkNames = .ok ()) : Path.IsPlainName file.text := by
  rcases h with hdocument | ⟨entity, hentity, rfl⟩
  · simp only [List.mem_cons, List.not_mem_nil, or_false] at hdocument
    rcases hdocument with rfl | rfl
    · exact ⟨by decide, by decide⟩
    · exact ⟨by decide, by decide⟩
  · exact isPlainName_entityFile entity.1 (isFileStem_of_mem hnames hentity)

section Compile

variable {resolver : ClassResolver} {config : Config} {root : Node} {before after : FileMap}
  {result : Except CompileFault CompileReport}

/-- A tree whose names do not pass is refused before anything is written. -/
theorem compile_of_checkNames_eq_error {fault : TreeFault} (h : root.checkNames = .error fault) :
    (compile resolver config root : ExceptT CompileFault (StateM FileMap) CompileReport) before =
      (.error (.tree fault), before) := by
  unfold compile
  rw [h]
  rfl

/-- A compilation changes no file but those that it may write. -/
theorem content_of_forall_ne
    (h : (compile resolver config root : ExceptT CompileFault (StateM FileMap) CompileReport)
      before = (result, after))
    {key : String × List String}
    (hkey : ∀ file, IsOutput root file → key ≠ ((outputDirectory config).join file).key) :
    after.content? key = before.content? key := by
  have hemitted {outcome : Except CompileFault (List ChunkEntry × List SkippedChunk)}
      {emitted : FileMap}
      (hrun : (emitAll (emitterOf resolver config root) (entities root) :
        ExceptT CompileFault (StateM FileMap) _) before = (outcome, emitted)) :
      emitted.content? key = before.content? key := by
    have hruns := @runs_emitAll (emitterOf resolver config root) (entities root) before
    rw [hrun] at hruns
    exact hruns.content_of_ne fun entity hentity => hkey _ (.inr ⟨entity, hentity, rfl⟩)
  cases result with
  | error fault =>
      rcases compile_eq_error h with ⟨_, -, -, rfl⟩ | ⟨-, hrun⟩
      · rfl
      · exact hemitted hrun
  | ok report =>
      obtain ⟨-, entries, emitted, hrun, -, hsymbols, -, hmanifest, rfl⟩ := compile_eq_ok h
      rw [hsymbols, hmanifest,
        FileMap.content_write_of_ne (hkey manifestFile (.inl (by decide))),
        FileMap.content_write_of_ne (hkey symbolsFile (.inl (by decide)))]
      exact hemitted hrun

/-- A file that a compilation changes lies directly in the output directory, under a name that the
compilation may write. -/
theorem exists_output_of_content_ne
    (h : (compile resolver config root : ExceptT CompileFault (StateM FileMap) CompileReport)
      before = (result, after))
    {key : String × List String} (hkey : after.content? key ≠ before.content? key) :
    ∃ file, IsOutput root file ∧
      key = ((outputDirectory config).key.1, (outputDirectory config).key.2 ++ [file.text]) := by
  have hnames : root.checkNames = .ok () := by
    cases hnames : root.checkNames with
    | error fault =>
        cases (compile_of_checkNames_eq_error hnames).symm.trans h
        exact absurd rfl hkey
    | ok _ => rfl
  refine Classical.byContradiction fun hnone => hkey (content_of_forall_ne h ?_)
  intro file hfile hplace
  rw [Path.key_join _ (hfile.isPlainName hnames)] at hplace
  exact hnone ⟨file, hfile, hplace⟩

end Compile

/-- The names of the entities of a tree can neither lead out of the output directory nor collide there. They
pass exactly when each is nothing but a name, which is also what a walk along it finds, and no two
entities of a kind share one; the tree is otherwise refused for the first entity, in preorder, whose name is
not only a name, or is one but that of an earlier entity of the kind. A walk with a stack over what shows
the tree decides the same. The files of entities whose names pass differ from each other, whatever
their kinds, and from the symbol table, the manifest and the container, and they have no slash. A
compilation writes nothing when the names do not pass, and otherwise only to such files and the
two documents, directly in the output directory. -/
theorem files_apart (root : Node) :
    (∀ name, Path.IsName name ↔ Path.components ⟨name⟩ = [.normal name]) ∧
    (root.checkNames = .ok () ↔ NamesPass root.preorder) ∧
    (∀ fault, root.checkNames = .error fault ↔
      ∃ before node after, root.preorder = before ++ node :: after ∧ NamesPass before ∧
        node.kind.isEntity ∧
        (¬ Path.IsName node.name ∧ fault = .unsafeName node.kind node.name ∨
          Path.IsName node.name ∧
            (∃ earlier ∈ before, earlier.kind = node.kind ∧ earlier.name = node.name) ∧
            fault = .duplicateName node.kind node.name)) ∧
    (∀ {ι : Type} (view : TreeView ι) (handles : List ι), view.Shows view.root root handles →
      ∀ result, view.ChecksNames result ↔ result = root.checkNames) ∧
    (root.checkNames = .ok () →
      (root.preorder.Pairwise fun node other => ∀ kind otherKind : ChunkKind,
        node.kind = kind.node → other.kind = otherKind.node →
          entityFile kind node.name ≠ entityFile otherKind other.name) ∧
      ∀ node ∈ root.preorder, ∀ kind : ChunkKind, node.kind = kind.node →
        entityFile kind node.name ∉ [symbolsFile, manifestFile, containerFile] ∧
          '/' ∉ (entityFile kind node.name).text.toList) ∧
    ∀ resolver config before result after,
      (compile resolver config root : ExceptT CompileFault (StateM FileMap) CompileReport) before =
        (result, after) →
      (∀ fault, root.checkNames = .error fault → result = .error (.tree fault) ∧ after = before) ∧
      ∀ key, after.content? key ≠ before.content? key → ∃ file, IsOutput root file ∧
        key = ((outputDirectory config).key.1, (outputDirectory config).key.2 ++ [file.text]) := by
  refine ⟨fun name => Path.components_eq_normal_iff.symm, Node.checkNames_eq_ok_iff, fun fault => ?_,
    fun view handles hshows result => TreeView.checksNames_iff hshows, fun hnames => ⟨?_, ?_⟩,
    fun resolver config before result after h => ⟨fun fault hfault => ?_, fun key => ?_⟩⟩
  · rw [Node.checkNames_eq_error]
    refine exists_congr fun before => exists_congr fun node => exists_congr fun after =>
      and_congr_right fun _ => and_congr_right fun _ => and_congr_right fun hentity => ?_
    rw [Node.NameFault, Node.mem_entityNames hentity]
  · exact pairwise_entityFile_of_namesPass (Node.checkNames_eq_ok_iff.mp hnames)
  · intro node hnode kind hkind
    refine ⟨entityFile_notMem kind node.name, (isPlainName_entityFile kind ?_).notMem⟩
    exact (Node.checkNames_eq_ok.mp hnames).1 node hnode (hkind ▸ isEntity_node kind)
  · cases (compile_of_checkNames_eq_error hfault).symm.trans h
    exact ⟨rfl, rfl⟩
  · exact exists_output_of_content_ne h

/-- A group with the name of a set's file. -/
def guests : Node :=
  .mk ⟨.group, "hall.set", [("class", "Guests")], 0, [], []⟩ []

/-- The group beside the set. -/
def neighbours : Node :=
  .mk ⟨.root, "street", [], 0, [], []⟩
    [.mk ⟨.set, "hall", [("class", "Room")], 0, [], []⟩ [], guests]

/-- A group that is named like the directory above. -/
def escaping : Node :=
  .mk ⟨.root, "street", [], 0, [], []⟩ [.mk ⟨.group, "..", [("class", "Guests")], 0, [], []⟩ []]

/-- The files of the neighbours differ, and the tree with the group that leads upward is refused for it before
anything is written. -/
theorem files_apart_neighbours :
    entityFile .set "hall" ≠ entityFile .group "hall.set" ∧
      entityFile .group "hall.set" ∉ [symbolsFile, manifestFile, containerFile] ∧
      neighbours.view.ChecksNames (.ok ()) ∧
      ∀ before, (compile .attributes .standard escaping :
        ExceptT CompileFault (StateM FileMap) CompileReport) before =
          (.error (.tree (.unsafeName .group "..")), before) := by
  obtain ⟨-, -, -, hwalk, hfiles, -⟩ := files_apart neighbours
  obtain ⟨hdiffer, hothers⟩ := hfiles rfl
  obtain ⟨-, -, hfaults, -, -, hcompile⟩ := files_apart escaping
  have hfault : escaping.checkNames = .error (.unsafeName .group "..") :=
    (hfaults _).mpr ⟨[escaping], _, [], rfl, Node.nameFault?_nil_eq_none.mp rfl, rfl,
      .inl ⟨fun hname => hname.2.2.1 rfl, rfl⟩⟩
  have hguests : guests ∈ neighbours.preorder := .tail _ (.tail _ (.head _))
  refine ⟨?_, (hothers guests hguests .group rfl).1,
    (hwalk _ _ (TreeView.shows_view _ _) _).mpr rfl, fun before => ?_⟩
  · have hbelow := (List.pairwise_cons.mp hdiffer).2
    exact (List.pairwise_cons.mp hbelow).1 guests (.head _) .set .group rfl rfl
  · obtain ⟨hresult, hafter⟩ := (hcompile .attributes .standard before _ _ rfl).1 _ hfault
    exact Prod.ext hresult hafter

end StageArchive.Compilation
