import StageArchive.Proofs.Compilation
import StageArchive.Proofs.Container.Registration
import StageArchive.Proofs.Emit.Files
import StageArchive.Proofs.Media.Orders
/-!
# A compiled tree is assembled as it is

The manifest that a compilation leaves is loaded, registered and assembled, and the container holds
the entities of the tree in order: the media by their positions, and groups and scenes whose
references are these positions. `Emitter.IsReady` has the facts that the two halves agree on. Files
are taken to be a map from paths to contents, so that nothing fails for a reason outside the program.
What can still fail is a length that does not fit in a word: `LinksFit` says that each linked payload
fits, `ImageFits` that the container does.
-/

namespace StageArchive

open Compilation

/-- The position of a medium with a name among the media of a tree. -/
def Node.mediaPosition (root : Node) (name : String) : Nat :=
  ((root.descendantsOfKind .media).map (·.name)).idxOf name

namespace Emitter

/-- A linked payload says what the payload of an entity says, and its references to media are the
positions of media with the given names. -/
def Binds (emitter : Emitter) (names : List String) (payload linked : EntityPayload) : Prop :=
  linked.header = payload.header ∧ ∃ original instructions, ∃ numbers : List UInt32,
    payload.instructions emitter.config.byteOrder = .ok original ∧
    linked.instructions emitter.config.byteOrder = .ok instructions ∧
    instructions.map (·.skeleton) = original.map (·.skeleton) ∧
    assetOperands instructions = numbers.map some ∧
    numbers.map (·.toNat) = names.map emitter.root.mediaPosition

/-- A chunk of a container holds an entity: the list that was emitted for a medium, the payload that
was emitted for a set, or that of a group or scene, bound to the media that its properties name. The
last two may be followed by a zero byte. -/
def Holds (emitter : Emitter) (before : FileMap) (opened : Source) (entity : ChunkKind × Node)
    (chunk : Chunk) : Prop :=
  chunk.tag = entity.1.tag ∧ ∃ content, Emitted emitter before entity content ∧
    match entity.1 with
    | .media => ∃ others, opened.data.drop chunk.offset = content ++ others ∧
        chunk.finish = chunk.offset + content.length
    | .set => ∃ pad after, IsPadding pad ∧
        Reading.content chunk opened = (.ok (content.drop 4 ++ pad), after)
    | .group | .scene => ∃ body pad after payload linked, IsPadding pad ∧
        Reading.content chunk opened = (.ok (body ++ pad), after) ∧
        EntityPayload.decode emitter.config.byteOrder content = .ok payload ∧
        EntityPayload.decode emitter.config.byteOrder (body ++ pad) = .ok linked ∧
        emitter.Binds entity.2.entityMedia payload linked

/-- The chunks of a container hold entities in order, and the table of contents has the offset of
each. -/
inductive HoldsAll (emitter : Emitter) (before : FileMap) (opened : Source) :
    List (ChunkKind × Node) → List ContentsEntry → List Chunk → Prop
  | nil : HoldsAll emitter before opened [] [] []
  | cons {entity : ChunkKind × Node} {chunk : Chunk} {offset : UInt32}
      {entities : List (ChunkKind × Node)} {contents : List ContentsEntry} {chunks : List Chunk}
      (hoffset : offset.toNat = chunk.offset) (hholds : emitter.Holds before opened entity chunk)
      (hothers : HoldsAll emitter before opened entities contents chunks) :
      HoldsAll emitter before opened (entity :: entities) (⟨0, offset⟩ :: contents) (chunk :: chunks)

/-- A container that holds the entities of a tree: a reader that enters the root form meets the
header, the table of contents and a chunk for each entity, in order. So the place of a medium in the
table of contents is its position in the tree. -/
def IsFaithful (emitter : Emitter) (before : FileMap) (bytes : Bytes) : Prop :=
  ∃ form opened header contents chunks last entries after,
    (∀ start, Reading.openRoot (.start start bytes) = (.ok form, opened)) ∧
    Reading.childrenFrom form opened = (.ok (header :: contents :: chunks), last) ∧
    header.tag = .header ∧ contents.tag = .contents ∧
    Reading.contents contents opened = (.ok entries, after) ∧
    emitter.HoldsAll before opened (entities emitter.root) entries chunks ∧
    ∀ (position : Nat) (medium : Node),
      (emitter.root.descendantsOfKind .media)[position]? = some medium →
      ∃ offset : UInt32, ∃ chunk : Chunk, entries[position]? = some ⟨0, offset⟩ ∧
        offset.toNat = chunk.offset ∧ chunk ∈ chunks ∧ emitter.Holds before opened (.media, medium) chunk

end Emitter

namespace Compilation

/-- The entry of an entity whose file is in a directory. -/
def entryFrom (base : Path) (entity : ChunkKind × Node) : ChunkEntry :=
  ⟨entity.1, base.join (entityFile entity.1 entity.2.name), entity.2.name⟩

/-- The media of a tree are the first of its entities. -/
theorem entities_eq (root : Node) :
    ∃ content, entities root =
        (root.descendantsOfKind .media).map (fun node => (.media, node)) ++ content ∧
      ∀ entity ∈ content, entity.1 ≠ .media := by
  refine ⟨[ChunkKind.set, .group, .scene].flatMap fun kind =>
    (root.descendantsOfKind kind.node).map fun node => (kind, node), rfl, ?_⟩
  intro entity hentity
  obtain ⟨kind, hkind, hmem⟩ := List.mem_flatMap.mp hentity
  obtain ⟨node, -, rfl⟩ := List.mem_map.mp hmem
  show kind ≠ .media
  rintro rfl
  exact absurd hkind (by decide)

end Compilation

namespace Assembler

/-- No group or scene is too long for its words once it is linked. -/
def LinksFit (assembler : Assembler) (look : Path → Except FileFault Bytes) : Prop :=
  ∀ entry ∈ assembler.entries, entry.kind = .group ∨ entry.kind = .scene →
    ∀ content, look entry.source = .ok content →
      relinkEntity assembler.config.byteOrder assembler.assets content ≠ .error .payloadTooLong

/-- Where something becomes of every entry, none is too long. -/
theorem Disposes.linksFit {assembler : Assembler} {look : Path → Except FileFault Bytes}
    {dispositions : List Disposition}
    (h : assembler.Disposes look assembler.entries dispositions) : assembler.LinksFit look := by
  unfold LinksFit
  generalize assembler.entries = entries at h
  induction h with
  | nil => exact nofun
  | @cons entry content disposition entries dispositions hread hdispose hothers ih =>
      refine List.forall_mem_cons.mpr ⟨fun hkind found hfound hlong => ?_, ih⟩
      cases hread.symm.trans hfound
      -- This fault does not let the entry be left out under any policy.
      have hprepare : assembler.prepare entry content =
          .error (.relink entry.kind entry.name .payloadTooLong) := by
        rcases hkind with hkind | hkind <;> simp only [prepare, hkind, hlong]
      rw [hprepare] at hdispose
      cases hdispose

end Assembler

namespace Emitter

/-- An assembler has the entities of a tree as its entries, with files in a directory, and knows all
media that are named. -/
structure IsReady (emitter : Emitter) (assembler : Assembler) (before : FileMap) (base : Path)
    (files : FileMap) : Prop where
  byteOrder : assembler.config.byteOrder = emitter.config.byteOrder
  media : assembler.assets.names = (emitter.root.descendantsOfKind .media).map (·.name)
  entries : assembler.entries = (entities emitter.root).map (entryFrom base)
  names : ∀ entity ∈ entities emitter.root, ∀ name ∈ entity.2.entityMedia,
    '\x00' ∉ name.toList ∧ name ∈ assembler.assets.names
  files : ∀ entity ∈ entities emitter.root, ∃ content, Emitted emitter before entity content ∧
    files.read (entryFrom base entity).source = .ok content

variable {emitter : Emitter} {assembler : Assembler} {before : FileMap} {opened : Source}

/-- A payload that is linked to the media of a tree is bound to those that its entity names. -/
theorem binds_of_isLinkedFrom {entity : ChunkKind × Node} {content : Bytes}
    {payload linked : EntityPayload} {assets : NameIndex}
    (hkind : entity.2.kind = .group ∨ entity.2.kind = .scene)
    (hassets : assets.names = (emitter.root.descendantsOfKind .media).map (·.name))
    (hcount : assets.names.length ≤ 2 ^ 32)
    (hnames : ∀ name ∈ entity.2.entityMedia, '\x00' ∉ name.toList ∧ name ∈ assets.names)
    (hemitted : Emitted emitter before entity content)
    (hpayload : EntityPayload.decode emitter.config.byteOrder content = .ok payload)
    (hlinked : IsLinkedFrom emitter.config.byteOrder assets payload linked) :
    emitter.Binds entity.2.entityMedia payload linked := by
  obtain ⟨_, _, files, -, -, hemit⟩ := hemitted
  obtain ⟨instructions, hinstructions, hoperands⟩ :=
    operands_of_isLinkedFrom hkind (fun name hname => (hnames name hname).1) hemit hpayload hlinked
  obtain ⟨hheader, -, original, again, horiginal, hagain, hskeleton, -⟩ := hlinked
  rw [hinstructions] at hagain
  cases hagain
  refine ⟨hheader, original, instructions,
    entity.2.entityMedia.map fun name => UInt32.ofNat (assets.names.idxOf name), horiginal,
    hinstructions, hskeleton, ?_, ?_⟩
  · rw [hoperands, List.map_map]
    refine List.map_congr_left ?_
    intro name hname
    exact NameIndex.number?_of_mem (hnames name hname).2
  · rw [List.map_map]
    refine List.map_congr_left ?_
    intro name hname
    have hlt := List.idxOf_lt_length_of_mem (hnames name hname).2
    show (UInt32.ofNat (assets.names.idxOf name)).toNat = _
    rw [UInt32.toNat_ofNat_of_lt' (Nat.lt_of_lt_of_le hlt hcount), hassets]
    rfl

/-- A chunk that carries the entry of an entity holds the entity. -/
theorem IsReady.holds_of_carries {base : Path} {files : FileMap}
    (hready : emitter.IsReady assembler before base files)
    (hcount : assembler.assets.names.length ≤ 2 ^ 32) {entity : ChunkKind × Node}
    (hentity : entity ∈ entities emitter.root) {content : Bytes} {chunk : Chunk}
    (hemitted : Emitted emitter before entity content)
    (h : assembler.Carries opened (entryFrom base entity) content chunk) :
    emitter.Holds before opened entity chunk := by
  obtain ⟨kind, node⟩ := entity
  obtain ⟨htag, h⟩ := h
  refine ⟨htag, content, hemitted, ?_⟩
  cases kind with
  | media => exact h
  | set => exact h
  | group | scene =>
      obtain ⟨body, pad, after, payload, linked, hpad, hcontent, hpayload, hlinked, -, hfrom⟩ := h
      rw [hready.byteOrder] at hpayload hlinked hfrom
      have hkind : node.kind = .group ∨ node.kind = .scene := by
        first | exact .inl (mem_entities hentity).2 | exact .inr (mem_entities hentity).2
      exact ⟨body, pad, after, payload, linked, hpad, hcontent, hpayload, hlinked,
        binds_of_isLinkedFrom hkind hready.media hcount (hready.names _ hentity) hemitted hpayload
          hfrom⟩

/-- When the entries of some entities are accounted for and none is left out, the chunks hold the
entities. -/
theorem IsReady.holdsAll {base : Path} {files : FileMap}
    (hready : emitter.IsReady assembler before base files)
    (hcount : assembler.assets.names.length ≤ 2 ^ 32) {others : List (ChunkKind × Node)}
    (hothers : ∀ entity ∈ others, entity ∈ entities emitter.root)
    {contents : List ContentsEntry} {chunks : List Chunk} {written : List WrittenChunk}
    (h : assembler.Accounts files.read opened (others.map (entryFrom base)) contents chunks written
      []) :
    emitter.HoldsAll before opened others contents chunks := by
  induction others generalizing contents chunks written with
  | nil =>
      cases h
      exact .nil
  | cons entity others ih =>
      have hentity := hothers entity (List.mem_cons_self ..)
      -- Nothing is left out, so the entry is written from what its file holds.
      cases h with
      | written hread hoffset _ hcarries haccounts =>
          obtain ⟨content, hemitted, hcontent⟩ := hready.files entity hentity
          cases hcontent.symm.trans hread
          exact .cons hoffset (hready.holds_of_carries hcount hentity hemitted hcarries)
            (ih (fun other hother => hothers other (List.mem_cons_of_mem _ hother)) haccounts)

/-- The entity at a position is held by the chunk whose offset is at that place. -/
theorem HoldsAll.exists_chunk {entities : List (ChunkKind × Node)} {contents : List ContentsEntry}
    {chunks : List Chunk} (h : emitter.HoldsAll before opened entities contents chunks) {position : Nat}
    {entity : ChunkKind × Node} (hentity : entities[position]? = some entity) :
    ∃ offset chunk, contents[position]? = some ⟨0, offset⟩ ∧ offset.toNat = chunk.offset ∧
      chunk ∈ chunks ∧ emitter.Holds before opened entity chunk := by
  induction h generalizing position with
  | nil => cases hentity
  | @cons first chunk offset entities contents chunks hoffset hholds hothers ih =>
      cases position with
      | zero =>
          cases hentity
          exact ⟨offset, chunk, rfl, hoffset, List.mem_cons_self .., hholds⟩
      | succ position =>
          obtain ⟨other, found, hcontents, hother, hmem, hfound⟩ := ih hentity
          exact ⟨other, found, hcontents, hother, List.mem_cons_of_mem _ hmem, hfound⟩

/-- A sealed container that leaves nothing out is faithful. -/
theorem IsReady.isFaithful {base : Path} {files : FileMap} {bytes : Bytes}
    {report : AssemblyReport} (hready : emitter.IsReady assembler before base files)
    (hcount : assembler.assets.names.length ≤ 2 ^ 32) (hskipped : report.skipped = [])
    (h : assembler.IsSealed files.read bytes report) : emitter.IsFaithful before bytes := by
  obtain ⟨form, opened, header, contents, chunks, last, entries, after, hform, -, -, hchildren, -,
    -, hheader, htag, hcontents, haccounts⟩ := h
  rw [hready.entries, hskipped] at haccounts
  have hholds := hready.holdsAll hcount (fun _ hentity => hentity) haccounts
  refine ⟨form, opened, header, contents, chunks, last, entries, after, hform, hchildren, hheader,
    htag, hcontents, hholds, ?_⟩
  intro position medium hmedium
  obtain ⟨content, hcontent, -⟩ := entities_eq emitter.root
  refine hholds.exists_chunk ?_
  have hlength := (List.getElem?_eq_some_iff.mp hmedium).1
  rw [hcontent, List.getElem?_append_left (by rwa [List.length_map]), List.getElem?_map, hmedium]
  rfl

/-- There are no more media than entries. -/
theorem IsReady.length_assets_le {base : Path} {files : FileMap}
    (hready : emitter.IsReady assembler before base files) :
    assembler.assets.names.length ≤ assembler.entries.length := by
  obtain ⟨content, hcontent, -⟩ := entities_eq emitter.root
  rw [hready.media, hready.entries, hcontent, List.length_map, List.length_map, List.length_append,
    List.length_map]
  exact Nat.le_add_right _ _

/-- Unless a group or a scene gets too long, everything can be prepared and all entries are written. -/
theorem IsReady.exists_disposes {base : Path} {files : FileMap}
    (hready : emitter.IsReady assembler before base files)
    (hlinks : assembler.LinksFit files.read) :
    ∃ dispositions, assembler.Disposes files.read assembler.entries dispositions ∧
      Assembler.skippedChunks (assembler.entries.zip dispositions) = [] := by
  refine Assembler.exists_disposes ?_
  intro entry hentry
  have hmem := hready.entries ▸ hentry
  obtain ⟨entity, hentity, rfl⟩ := List.mem_map.mp hmem
  obtain ⟨content, ⟨_, _, seen, -, -, hemit⟩, hcontent⟩ := hready.files entity hentity
  obtain ⟨prepared, hprepared⟩ := exists_prepare_of_emit (mem_entities hentity).2 hready.byteOrder
    (hready.names entity hentity) (fun hkind => hlinks _ hentry hkind _ hcontent) hemit
  exact ⟨content, prepared, hcontent, hprepared⟩

end Emitter

section Assembly

variable {resolver : ClassResolver} {config : Config} {root : Node} {before after : FileMap}
  {report : CompileReport}

/-- The files of a compilation that leaves nothing out are found from the directory of the
manifest. -/
theorem exists_base
    (h : (compile resolver config root : ExceptT CompileFault (StateM FileMap) CompileReport)
      before = (.ok report, after))
    (hskipped : report.skipped = []) :
    ∃ base, (Manifest.load report.manifestPath : ExceptT AssemblyFault (StateM FileMap) Manifest)
        after = (.ok (report.manifest.withBase base), after) ∧
      (report.manifest.withBase base).config.byteOrder = config.byteOrder ∧
      (∀ clock, (report.manifest.withBase base).config.headerTimestamp clock =
        config.headerTimestamp clock) ∧
      (report.manifest.withBase base).chunks = (entities root).map (entryFrom base) ∧
      ∀ entity ∈ entities root, ∃ content,
        Emitted (emitterOf resolver config root) before entity content ∧
          after.read (entryFrom base entity).source = .ok content := by
  obtain ⟨hnames, hmanifest, hpath, htext, hfiles⟩ := contents_of_compile h hskipped
  obtain ⟨base, hbase, hkey⟩ := Path.key_parent_join (outputDirectory config)
    (⟨by decide, by decide⟩ : Path.IsPlainName manifestFile.text)
  have hparent : report.manifestPath.parent? = some base := by
    rw [hpath]
    exact hbase
  have hload := Manifest.load_eq htext
  rw [hparent] at hload
  refine ⟨base, hload, ?_, ?_, ?_, ?_⟩
  · rw [hmanifest]
    rfl
  · intro clock
    rw [hmanifest]
    rfl
  · rw [hmanifest]
    exact List.map_map
  · intro entity hentity
    obtain ⟨content, hemitted, hcontent⟩ := hfiles entity hentity
    have hplain := isPlainName_entityFile entity.1 (isFileStem_of_mem hnames hentity)
    -- The manifest's directory may be spelled otherwise than the output directory, so keys are
    -- compared.
    have hsame : (base.join (entityFile entity.1 entity.2.name)).key =
        (entityPath config entity).key := by
      have hjoin := Path.key_join base hplain
      rw [hkey] at hjoin
      exact hjoin.trans (Path.key_join (outputDirectory config) hplain).symm
    refine ⟨content, hemitted, FileMap.read_eq_ok.mpr ?_⟩
    show after.content? (base.join (entityFile entity.1 entity.2.name)).key = some content
    rw [hsame]
    exact hcontent

/-- The entries of the entities of a tree are registered when their files are there, and the media
are numbered by their positions. -/
theorem exists_registered {base : Path} {files : FileMap} (settings : Config)
    (hnames : root.checkNames = .ok ())
    (hfiles : ∀ entity ∈ entities root, ∃ content,
      files.read (entryFrom base entity).source = .ok content) :
    ∃ assets, assets.names = (root.descendantsOfKind .media).map (·.name) ∧
      ((Assembler.start settings).registerAll ((entities root).map (entryFrom base)) :
          ExceptT AssemblyFault (StateM FileMap) Assembler) files =
        (.ok ⟨settings, (entities root).map (entryFrom base), assets⟩, files) := by
  obtain ⟨content, hcontent, hkinds⟩ := entities_eq root
  have hmediaNames : (((root.descendantsOfKind .media).map fun node => (ChunkKind.media, node)).map
      (entryFrom base)).map (·.name) = (root.descendantsOfKind .media).map (·.name) := by
    rw [List.map_map, List.map_map]
    rfl
  rw [← hmediaNames, hcontent, List.map_append]
  refine Assembler.registerAll_eq ?_ ?_ ?_ ?_
  · intro entry hentry
    obtain ⟨entity, hentity, rfl⟩ := List.mem_map.mp hentry
    obtain ⟨node, -, rfl⟩ := List.mem_map.mp hentity
    rfl
  · intro entry hentry
    obtain ⟨entity, hentity, rfl⟩ := List.mem_map.mp hentry
    exact hkinds entity hentity
  · intro entry hentry
    rw [← List.map_append, ← hcontent] at hentry
    obtain ⟨entity, hentity, rfl⟩ := List.mem_map.mp hentry
    obtain ⟨bytes, hbytes⟩ := hfiles entity hentity
    exact ⟨bytes, FileMap.read_eq_ok.mp hbytes⟩
  · rw [hmediaNames]
    exact Node.nodup_names_of_checkNames hnames rfl

/-- The manifest that a compilation leaves is loaded and registered, and is then ready to be
assembled. -/
theorem exists_isReady
    (h : (compile resolver config root : ExceptT CompileFault (StateM FileMap) CompileReport)
      before = (.ok report, after))
    (hskipped : report.skipped = [])
    (hmedia : ∀ entity ∈ entities root, ∀ name ∈ entity.2.entityMedia,
      '\x00' ∉ name.toList ∧ ∃ medium ∈ root.descendantsOfKind .media, medium.name = name) :
    ∃ manifest assembler base,
      (Manifest.load report.manifestPath : ExceptT AssemblyFault (StateM FileMap) Manifest) after =
        (.ok manifest, after) ∧
      ((Assembler.start manifest.config).registerAll manifest.chunks :
          ExceptT AssemblyFault (StateM FileMap) Assembler) after = (.ok assembler, after) ∧
      (∀ clock, assembler.config.headerTimestamp clock = config.headerTimestamp clock) ∧
      (emitterOf resolver config root).IsReady assembler before base after := by
  obtain ⟨hnames, -⟩ := contents_of_compile h hskipped
  obtain ⟨base, hload, horder, htime, hchunks, hfiles⟩ := exists_base h hskipped
  have hthere : ∀ entity ∈ entities root, ∃ content,
      after.read (entryFrom base entity).source = .ok content := by
    intro entity hentity
    obtain ⟨content, -, hcontent⟩ := hfiles entity hentity
    exact ⟨content, hcontent⟩
  obtain ⟨assets, hassets, hregister⟩ :=
    exists_registered (report.manifest.withBase base).config hnames hthere
  rw [← hchunks] at hregister
  refine ⟨report.manifest.withBase base, _, base, hload, hregister, htime, horder, hassets, hchunks,
    ?_, hfiles⟩
  intro entity hentity name hname
  obtain ⟨hzero, medium, hmedium, rfl⟩ := hmedia entity hentity name hname
  refine ⟨hzero, ?_⟩
  show medium.name ∈ assets.names
  rw [hassets]
  exact List.mem_map_of_mem hmedium

/-- The manifest that a compilation leaves is loaded and registered, and it is assembled exactly when all
lengths, offsets and sizes fit in a word: those of the linked groups and scenes, and those of the container
that results. Then nothing is left out and the container is faithful. Nothing may have been left out by the
compilation, and every medium that is named must be in the tree, with a name without zero characters. -/
theorem assemble_compiled
    (h : (compile resolver config root : ExceptT CompileFault (StateM FileMap) CompileReport)
      before = (.ok report, after))
    (hskipped : report.skipped = [])
    (hmedia : ∀ entity ∈ entities root, ∀ name ∈ entity.2.entityMedia,
      '\x00' ∉ name.toList ∧ ∃ medium ∈ root.descendantsOfKind .media, medium.name = name)
    (clock : UInt32) :
    ∃ manifest assembler,
      (Manifest.load report.manifestPath : ExceptT AssemblyFault (StateM FileMap) Manifest) after =
        (.ok manifest, after) ∧
      ((Assembler.start manifest.config).registerAll manifest.chunks :
          ExceptT AssemblyFault (StateM FileMap) Assembler) after = (.ok assembler, after) ∧
      ((∃ assembled final, (assembler.finalize clock manifest.output :
            ExceptT AssemblyFault (StateM FileMap) AssemblyReport) after =
          (.ok assembled, final)) ↔
        assembler.LinksFit after.read ∧
          ∀ dispositions, assembler.Disposes after.read assembler.entries dispositions →
            Assembler.ImageFits config.byteOrder (config.headerTimestamp clock) dispositions) ∧
      ∀ assembled final, (assembler.finalize clock manifest.output :
            ExceptT AssemblyFault (StateM FileMap) AssemblyReport) after =
          (.ok assembled, final) →
        assembled.skipped = [] ∧ ∃ bytes, final.content? assembled.output.key = some bytes ∧
          (emitterOf resolver config root).IsFaithful before bytes := by
  obtain ⟨manifest, assembler, base, hload, hregister, htime, hready⟩ :=
    exists_isReady h hskipped hmedia
  have horder : assembler.config.byteOrder = config.byteOrder := hready.byteOrder
  refine ⟨manifest, assembler, hload, hregister, ?_, ?_⟩
  · rw [← horder, ← htime]
    constructor
    · rintro ⟨assembled, final, hfinal⟩
      obtain ⟨dispositions, bytes, hdisposes, hbuilds, -⟩ :=
        Assembler.finalize_eq_ok_of_fileMap.mp hfinal
      exact ⟨hdisposes.linksFit, fun others hothers => hothers.unique hdisposes ▸ hbuilds.1⟩
    · rintro ⟨hlinks, hfits⟩
      obtain ⟨dispositions, hdisposes, -⟩ := hready.exists_disposes hlinks
      exact ⟨_, _, Assembler.finalize_eq_ok_of_fileMap.mpr
        ⟨dispositions, _, hdisposes, ⟨hfits dispositions hdisposes, rfl, rfl⟩, rfl⟩⟩
  · intro assembled final hfinal
    obtain ⟨dispositions, bytes, hdisposes, hbuilds, rfl⟩ :=
      Assembler.finalize_eq_ok_of_fileMap.mp hfinal
    obtain ⟨others, hothers, hnone⟩ := hready.exists_disposes hdisposes.linksFit
    obtain rfl := hdisposes.unique hothers
    have hreport := hbuilds.2.2
    have hskipped : assembled.skipped = [] := by
      rw [hreport]
      exact hnone
    have houtput : assembled.output = assembler.config.resolveOutput manifest.output := by
      rw [hreport]
    -- Every medium is an entry, and an image that fits has fewer than `2 ^ 32` of them.
    have hcount : assembler.assets.names.length ≤ 2 ^ 32 := by
      have hless := hready.length_assets_le
      rw [← hdisposes.length_eq] at hless
      exact Nat.le_trans hless (Nat.le_of_lt hbuilds.1.count)
    refine ⟨hskipped, bytes, ?_,
      hready.isFaithful hcount hskipped (Assembler.isSealed_of_builds hdisposes hbuilds)⟩
    rw [houtput]
    exact FileMap.content_write_self ..

end Assembly

/-- A medium without files. -/
def mediumOf (name : String) : Node :=
  .mk ⟨.media, name, [("class", "M")], 0, [], []⟩ []

/-- A tree with two media and a scene that refers to the second. -/
def twoMedia : Node :=
  .mk ⟨.root, "r", [], 0, [], []⟩ [mediumOf "a", mediumOf "b", Emitter.sceneOf ["b"]]

/-- The files of the tree. -/
def twoMediaFiles : FileMap :=
  ((compile .attributes .standard twoMedia :
    ExceptT CompileFault (StateM FileMap) CompileReport) .empty).2

/-- The entries of the tree, ready to be assembled. -/
def twoMediaAssembler : Assembler :=
  ⟨{ Config.standard with outputDirectory := some ⟨"."⟩ },
    (entities twoMedia).map (entryFrom ⟨"."⟩), .ofList ["a", "b"]⟩

/-- The file of a medium without files. -/
def bareMedia : Bytes :=
  Tag.list.bytes ++ [0, 0, 0, 24] ++ Tag.mediaList.bytes ++ Tag.info.bytes ++ [0, 0, 0, 12] ++
    List.replicate 12 0

/-- The file of the scene. -/
def emittedScene : Bytes :=
  EntityPayload.encode .big ⟨0, 0⟩ [0x8a, 0x8d, 0x80] ["b"]

/-- The scene when it is linked to the media. -/
def linkedScene : Bytes :=
  EntityPayload.encode .big ⟨0, 0⟩ [0x8a, 0x8d, 1, 0x80] []

/-- What becomes of the entries. -/
def threeDispositions : List Disposition :=
  [.written (.whole bareMedia), .written (.whole bareMedia), .written (.body .scene linkedScene)]

/-- The scene refers to the second medium when it is linked. -/
theorem relinkEntity_emittedScene :
    relinkEntity .big twoMediaAssembler.assets emittedScene = .ok linkedScene := by
  have hlinked : (relinkEntity .big twoMediaAssembler.assets emittedScene).toOption =
      some linkedScene := by
    decide +kernel
  cases hrun : relinkEntity .big twoMediaAssembler.assets emittedScene with
  | error fault =>
      rw [hrun] at hlinked
      cases hlinked
  | ok body =>
      rw [hrun] at hlinked
      exact congrArg Except.ok (Option.some.inj hlinked)

/-- All three entries are written. -/
theorem disposes_twoMedia :
    twoMediaAssembler.Disposes twoMediaFiles.read twoMediaAssembler.entries
      threeDispositions := by
  have hmedium (entry : ChunkEntry) (hkind : entry.kind = .media) :
      twoMediaAssembler.dispose (twoMediaAssembler.prepare entry bareMedia) =
        .ok (.written (.whole bareMedia)) := by
    have hdecode : MediaList.decode twoMediaAssembler.config.byteOrder bareMedia = .ok _ := rfl
    simp only [Assembler.prepare, hkind, hdecode]
    rfl
  have hscene : twoMediaAssembler.dispose (twoMediaAssembler.prepare
      (entryFrom ⟨"."⟩ (.scene, Emitter.sceneOf ["b"])) emittedScene) =
        .ok (.written (.body .scene linkedScene)) := by
    rw [entryFrom, Emitter.prepare_of_relinkEntity (.inr rfl) rfl relinkEntity_emittedScene]
    rfl
  exact .cons rfl (hmedium _ rfl) (.cons rfl (hmedium _ rfl) (.cons rfl hscene .nil))

/-- The tree is assembled, and the reference to the second medium has the number one. -/
theorem assemble_compiled_twoMedia :
    ∃ report manifest assembled final bytes,
      (compile .attributes .standard twoMedia :
          ExceptT CompileFault (StateM FileMap) CompileReport) .empty =
        (.ok report, twoMediaFiles) ∧
      (Manifest.load report.manifestPath : ExceptT AssemblyFault (StateM FileMap) Manifest)
          twoMediaFiles = (.ok manifest, twoMediaFiles) ∧
      (twoMediaAssembler.finalize 9 manifest.output :
          ExceptT AssemblyFault (StateM FileMap) AssemblyReport) twoMediaFiles =
        (.ok assembled, final) ∧
      assembled.skipped = [] ∧ final.content? assembled.output.key = some bytes ∧
      (emitterOf .attributes .standard twoMedia).IsFaithful .empty bytes ∧
      (Emitter.sceneOf ["b"]).entityMedia.map twoMedia.mediaPosition = [1] := by
  have hcompile : (compile .attributes .standard twoMedia :
      ExceptT CompileFault (StateM FileMap) CompileReport) .empty = (.ok _, twoMediaFiles) := rfl
  obtain ⟨manifest, assembler, hload, hregister, hiff, hfaithful⟩ :=
    assemble_compiled hcompile rfl (by decide) 9
  have hmanifest := hload.symm.trans (Manifest.load_eq (FileMap.content_write_self ..))
  obtain rfl := Except.ok.inj (Prod.mk.inj hmanifest).1
  have hassembler : _ = ((.ok twoMediaAssembler, _) : Except AssemblyFault Assembler × FileMap) :=
    hregister.symm.trans rfl
  obtain rfl := Except.ok.inj (Prod.mk.inj hassembler).1
  have hfits : Assembler.ImageFits .big 9 threeDispositions := .of_length (by decide +kernel)
  obtain ⟨assembled, final, hfinal⟩ := hiff.mpr ⟨disposes_twoMedia.linksFit,
    fun dispositions hdisposes => hdisposes.unique disposes_twoMedia ▸ hfits⟩
  obtain ⟨hskipped, bytes, hbytes, hresult⟩ := hfaithful assembled final hfinal
  exact ⟨_, _, assembled, final, bytes, hcompile, hload, hfinal, hskipped, hbytes, hresult,
    by decide⟩

/-- A medium that embeds a file. -/
def embeddingOf (name : String) : Node :=
  .mk ⟨.media, name, [("class", "M")], 0, [], [⟨0, "raw", ⟨"m.raw"⟩, true⟩]⟩ []

/-- A tree with two media that embed the same file. -/
def twoEmbeddings : Node :=
  .mk ⟨.root, "r", [], 0, [], []⟩ [embeddingOf "a", embeddingOf "b"]

/-- The list of either medium when the file has the given data. -/
def embeddedList (data : Bytes) : MediaList :=
  ⟨0, 0, [⟨0, .ofChars 'r' 'a' 'w' ' ', data⟩]⟩

/-- What is emitted for either medium. -/
theorem emit_embeddingOf {files : FileMap} {data : Bytes} {entity : ChunkKind × Node}
    (hentity : entity ∈ entities twoEmbeddings)
    (hfile : files.content? (⟨"m.raw"⟩ : Path).key = some data)
    (hdata : data.length < 2 ^ 32 - 53) :
    ((emitterOf .attributes .standard twoEmbeddings).emit entity.2 :
        ExceptT EmitFault (StateM FileMap) Bytes) files =
      (.ok ((embeddedList data).bytes .big), files) := by
  have hlength : (embeddedList data).encodedLength = 52 + (data.length + data.length % 2) :=
    MediaList.encodedLength_of_single rfl
  have hencode : (embeddedList data).encode .big = .ok ((embeddedList data).bytes .big) :=
    MediaList.encode_eq_ok.mpr ⟨MediaList.fits_of_encodedLength .big (by omega), rfl⟩
  have hembeds : ∀ entity ∈ entities twoEmbeddings, ∀ path, entity.2.Embeds .standard path →
      path = ⟨"m.raw"⟩ := by
    rintro _ (_ | ⟨_, _ | ⟨_, _ | _⟩⟩) path ⟨-, source, _ | ⟨_, _ | _⟩, -, rfl⟩
    · rfl
    · rfl
  have hsame : outcome (emitterOf .attributes .standard twoEmbeddings) files entity.2 =
      outcome (emitterOf .attributes .standard twoEmbeddings)
        (FileMap.empty.write ⟨"m.raw"⟩ data) entity.2 := by
    refine outcome_congr fun path hpath => ?_
    rw [hembeds entity hentity path hpath, hfile, FileMap.content_write_self]
  have houtcome : outcome (emitterOf .attributes .standard twoEmbeddings)
        (FileMap.empty.write ⟨"m.raw"⟩ data) entity.2 =
      ((embeddedList data).encode .big).mapError .container := by
    rcases hentity with _ | ⟨_, _ | ⟨_, _ | _⟩⟩
    · rfl
    · rfl
  rw [emit_eq, hsame, houtcome, hencode]
  rfl

/-- No entity of the tree is written over the embedded file. -/
theorem content_of_emits {data : Bytes} {done : List (ChunkKind × Node)} {files : FileMap}
    (h : Emits (emitterOf .attributes .standard twoEmbeddings)
      (FileMap.empty.write ⟨"m.raw"⟩ data) done files) (hdone : done ⊆ entities twoEmbeddings) :
    files.content? (⟨"m.raw"⟩ : Path).key = some data := by
  have hkeys : ∀ entity ∈ entities twoEmbeddings,
      (⟨"m.raw"⟩ : Path).key ≠ (entityPath .standard entity).key := by decide
  rw [h.runs.content_of_ne fun entity hentity => hkeys entity (hdone hentity)]
  exact FileMap.content_write_self ..

/-- Both media are emitted when the file is not too long for one. -/
theorem emits_twoEmbeddings {data : Bytes} (hdata : data.length < 2 ^ 32 - 53) :
    ∃ emitted, Emits (emitterOf .attributes .standard twoEmbeddings)
      (FileMap.empty.write ⟨"m.raw"⟩ data) (entities twoEmbeddings) emitted := by
  have hfirst : Emits (emitterOf .attributes .standard twoEmbeddings)
      (FileMap.empty.write ⟨"m.raw"⟩ data) [(.media, embeddingOf "a")] _ :=
    .cons (emit_embeddingOf (.head _) (FileMap.content_write_self ..) hdata) (.nil _)
  have hfile := content_of_emits hfirst (List.take_subset 1 (entities twoEmbeddings))
  exact ⟨_, .cons (emit_embeddingOf (.head _) (FileMap.content_write_self ..) hdata)
    (.cons (emit_embeddingOf (.tail _ (.head _)) hfile hdata) (.nil _))⟩

/-- A medium takes all bytes of its file. -/
theorem Assembler.bytes_of_dispose_media {assembler : Assembler} {entry : ChunkEntry} {content : Bytes}
    {disposition : Disposition} (hkind : entry.kind = .media)
    (h : assembler.dispose (assembler.prepare entry content) = .ok disposition) (order : ByteOrder) :
    disposition.bytes order = content := by
  unfold prepare at h
  rw [hkind] at h
  dsimp only at h
  split at h
  · cases h
  · cases h
    rfl

/-- Media take at least as many bytes as their files have. -/
theorem Assembler.Disposes.length_le_of_media {assembler : Assembler}
    {look : Path → Except FileFault Bytes} {entries : List ChunkEntry}
    {dispositions : List Disposition} {least : Nat}
    (h : assembler.Disposes look entries dispositions)
    (hmedia : ∀ entry ∈ entries, entry.kind = .media)
    (hleast : ∀ entry ∈ entries, ∀ content, look entry.source = .ok content →
      least ≤ content.length) (order : ByteOrder) :
    entries.length * least ≤ (dispositions.flatMap (·.bytes order)).length := by
  induction h with
  | nil => exact Nat.le_of_eq (Nat.zero_mul least)
  | cons hread hdispose hothers ih =>
      obtain ⟨hkind, hmedia⟩ := List.forall_mem_cons.mp hmedia
      obtain ⟨hfirst, hleast⟩ := List.forall_mem_cons.mp hleast
      rw [List.length_cons, Nat.succ_mul, List.flatMap_cons, List.length_append,
        bytes_of_dispose_media hkind hdispose, Nat.add_comm]
      exact Nat.add_le_add (hfirst _ hread) (ih hmedia hleast)

/-- What is emitted for either medium in its turn is no shorter than the embedded file. -/
theorem length_le_of_emitted {data content : Bytes} {entity : ChunkKind × Node}
    (hentity : entity ∈ entities twoEmbeddings) (hdata : data.length < 2 ^ 32 - 53)
    (h : Emitted (emitterOf .attributes .standard twoEmbeddings)
      (FileMap.empty.write ⟨"m.raw"⟩ data) entity content) : data.length ≤ content.length := by
  obtain ⟨done, others, files, hparts, hdone, hemit⟩ := h
  have hall : entities twoEmbeddings = done ++ entity :: others := hparts
  have hsubset : done ⊆ entities twoEmbeddings := hall ▸ List.subset_append_left ..
  cases (emit_embeddingOf hentity (content_of_emits hdone hsubset) hdata).symm.trans hemit
  rw [MediaList.length_bytes, embeddedList, MediaList.encodedLength_of_single rfl]
  omega

/-- Two media that embed a file of two gibibytes: the tree is compiled with nothing left out, and the
manifest is loaded and registered, but the container is never finished. -/
theorem not_assembled_twoEmbeddings :
    ∃ report after manifest assembler,
      twoEmbeddings.check = .ok () ∧
      (∀ node ∈ twoEmbeddings.preorder, '\x00' ∉ node.name.toList) ∧
      (∀ entity ∈ entities twoEmbeddings, entity.2.entityMedia = []) ∧
      (compile .attributes .standard twoEmbeddings :
          ExceptT CompileFault (StateM FileMap) CompileReport)
        (FileMap.empty.write ⟨"m.raw"⟩ (List.replicate (2 ^ 31) 0)) = (.ok report, after) ∧
      report.skipped = [] ∧
      (Manifest.load report.manifestPath : ExceptT AssemblyFault (StateM FileMap) Manifest) after =
        (.ok manifest, after) ∧
      ((Assembler.start manifest.config).registerAll manifest.chunks :
          ExceptT AssemblyFault (StateM FileMap) Assembler) after = (.ok assembler, after) ∧
      ∀ clock, ¬ ∃ assembled final, (assembler.finalize clock manifest.output :
          ExceptT AssemblyFault (StateM FileMap) AssemblyReport) after = (.ok assembled, final) := by
  -- Only the length of the file matters; spelled out, it would not end.
  have hdata : (List.replicate (2 ^ 31) 0 : Bytes).length = 2 ^ 31 := List.length_replicate
  generalize (List.replicate (2 ^ 31) 0 : Bytes) = data at hdata ⊢
  have hnone : ∀ entity ∈ entities twoEmbeddings, entity.2.entityMedia = [] := by decide
  obtain ⟨emitted, hemits⟩ := emits_twoEmbeddings (show data.length < 2 ^ 32 - 53 by omega)
  obtain ⟨report, after, hcompile, hskipped⟩ := exists_compile_of_emits rfl hemits
  have hmedia : ∀ entity ∈ entities twoEmbeddings, ∀ name ∈ entity.2.entityMedia,
      '\x00' ∉ name.toList ∧
        ∃ medium ∈ twoEmbeddings.descendantsOfKind .media, medium.name = name := by
    intro entity hentity name hname
    rw [hnone entity hentity] at hname
    cases hname
  obtain ⟨manifest, assembler, base, hload, hregister, -, hready⟩ :=
    exists_isReady hcompile hskipped hmedia
  refine ⟨report, after, manifest, assembler, rfl, by decide, hnone, hcompile, hskipped, hload,
    hregister, ?_⟩
  rintro clock ⟨assembled, final, hfinal⟩
  obtain ⟨dispositions, bytes, hdisposes, hbuilds, -⟩ :=
    Assembler.finalize_eq_ok_of_fileMap.mp hfinal
  have hentries : assembler.entries = (entities twoEmbeddings).map (entryFrom base) := hready.entries
  have hlength : 2 * 2 ^ 31 ≤
      (dispositions.flatMap (·.bytes assembler.config.byteOrder)).length := by
    rw [hentries] at hdisposes
    refine hdisposes.length_le_of_media ?_ ?_ assembler.config.byteOrder
    · exact List.forall_mem_map.mpr (by decide : ∀ entity ∈ entities twoEmbeddings, entity.1 = .media)
    · refine List.forall_mem_map.mpr fun entity hentity content hread => ?_
      obtain ⟨emitted, hemitted, hfile⟩ := hready.files entity hentity
      cases hfile.symm.trans hread
      exact hdata ▸ length_le_of_emitted hentity (by omega) hemitted
  have hsize := hbuilds.1.size
  rw [Assembler.length_image, length_padded, Assembler.length_imageBody] at hsize
  omega

end StageArchive
