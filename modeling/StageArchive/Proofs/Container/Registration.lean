import StageArchive.Proofs.Container.Manifest
import StageArchive.Proofs.Container.Sealed
import StageArchive.Proofs.FileMap
import StageArchive.Proofs.NameIndex
/-!
# From a manifest to a container

A manifest whose media come first, with different names, is registered entry by entry when all files
are there; the media are then numbered by their places. Entries whose files can all be prepared are
all written.
-/

namespace StageArchive

/-- A manifest is loaded from the file with its text. -/
theorem Manifest.load_eq {manifest : Manifest} {path : Path} {files : FileMap}
    (h : files.content? path.key = some (Text.utf8 manifest.print)) :
    (Manifest.load path : ExceptT AssemblyFault (StateM FileMap) Manifest) files =
      (.ok (manifest.withBase (path.parent?.getD ⟨""⟩)), files) := by
  have hread : (Assembler.accessing path (FileAccess.readText path) :
      ExceptT AssemblyFault (StateM FileMap) String) files = (.ok manifest.print, files) :=
    Assembler.accessing_eq_ok.mpr (FileMap.readText_eq h)
  rw [load, run_bind_of_eq hread, parse_print]
  rfl

namespace Assembler

variable {assembler : Assembler} {entry : ChunkEntry} {files : FileMap}

/-- An entry is registered when its file is there and it is accepted. -/
theorem register_run {σ : Type} [FileAccess (StateM σ)] (assembler : Assembler) {before after : σ}
    {found : Bool} (h : (FileAccess.isFile entry.source : StateM σ Bool) before = (found, after)) :
    (assembler.register entry : ExceptT AssemblyFault (StateM σ) Assembler) before =
      (if found then assembler.accept entry
        else .error (.missingSource entry.kind entry.name entry.source), after) := by
  rw [register, run_mk_of_eq h]
  split <;> rfl

/-- An entry whose file is there is registered when it is accepted. -/
theorem register_eq {content : Bytes} (h : files.content? entry.source.key = some content) :
    (assembler.register entry : ExceptT AssemblyFault (StateM FileMap) Assembler) files =
      (assembler.accept entry, files) := by
  have hfile : (FileAccess.isFile entry.source : StateM FileMap Bool) files = (true, files) :=
    Prod.ext (congrArg Option.isSome h) rfl
  exact register_run assembler hfile

/-- What is not a medium is accepted. -/
theorem accept_of_ne (h : entry.kind ≠ .media) :
    assembler.accept entry = .ok { assembler with entries := assembler.entries ++ [entry] } :=
  if_neg h

/-- A medium with a new name is accepted among media and gets the next number. -/
theorem accept_media (hkind : entry.kind = .media)
    (hmedia : ∀ other ∈ assembler.entries, other.kind = .media)
    (hname : entry.name ∉ assembler.assets.names) :
    assembler.accept entry =
      .ok { assembler with
        entries := assembler.entries ++ [entry]
        assets := assembler.assets.add entry.name } := by
  have hcontent : assembler.entries.find? (·.kind ≠ .media) = none := by
    refine List.find?_eq_none.mpr ?_
    intro other hother
    simp [hmedia other hother]
  have hnew : assembler.assets.number? entry.name = none := by
    rw [NameIndex.number?, List.idxOf?_eq_none_iff.mpr hname]
    rfl
  unfold accept
  rw [if_pos hkind, hcontent, hnew]
  rfl

/-- Entries that are no media are registered when their files are there. -/
theorem registerAll_content {content : List ChunkEntry}
    (hkinds : ∀ entry ∈ content, entry.kind ≠ .media)
    (hfiles : ∀ entry ∈ content, ∃ bytes, files.content? entry.source.key = some bytes) :
    (assembler.registerAll content : ExceptT AssemblyFault (StateM FileMap) Assembler) files =
      (.ok { assembler with entries := assembler.entries ++ content }, files) := by
  induction content generalizing assembler with
  | nil =>
      rw [List.append_nil]
      rfl
  | cons entry content ih =>
      obtain ⟨bytes, hbytes⟩ := hfiles entry (List.mem_cons_self ..)
      have hregister := @register_eq assembler entry files bytes hbytes
      rw [accept_of_ne (hkinds entry (List.mem_cons_self ..))] at hregister
      rw [registerAll, run_bind_of_eq hregister,
        ih (fun other hother => hkinds other (List.mem_cons_of_mem _ hother))
          (fun other hother => hfiles other (List.mem_cons_of_mem _ hother)),
        List.append_assoc]
      rfl

/-- Media with new names are registered before other entries, numbered in order. -/
theorem registerAll_media {media others : List ChunkEntry}
    (hentries : ∀ entry ∈ assembler.entries, entry.kind = .media)
    (hkinds : ∀ entry ∈ media, entry.kind = .media)
    (hfiles : ∀ entry ∈ media, ∃ bytes, files.content? entry.source.key = some bytes)
    (hnodup : (media.map (·.name)).Nodup)
    (hnew : ∀ entry ∈ media, entry.name ∉ assembler.assets.names) :
    ∃ assets, assets.names = assembler.assets.names ++ media.map (·.name) ∧
      (assembler.registerAll (media ++ others) :
          ExceptT AssemblyFault (StateM FileMap) Assembler) files =
        (Assembler.registerAll
          { assembler with entries := assembler.entries ++ media, assets := assets } others :
            ExceptT AssemblyFault (StateM FileMap) Assembler) files := by
  -- Each medium is registered behind those before it, whose names it must not repeat.
  induction media generalizing assembler with
  | nil =>
      refine ⟨assembler.assets, (List.append_nil _).symm, ?_⟩
      rw [List.append_nil]
      rfl
  | cons entry media ih =>
      obtain ⟨bytes, hbytes⟩ := hfiles entry (List.mem_cons_self ..)
      rw [List.map_cons, List.nodup_cons] at hnodup
      have hkind := hkinds entry (List.mem_cons_self ..)
      have hname := hnew entry (List.mem_cons_self ..)
      have hregister := @register_eq assembler entry files bytes hbytes
      rw [accept_media hkind hentries hname] at hregister
      have hadded := NameIndex.names_add_of_notMem hname
      obtain ⟨assets, hassets, hothers⟩ := @ih
        { assembler with
          entries := assembler.entries ++ [entry]
          assets := assembler.assets.add entry.name }
        (by
          intro other hother
          rcases List.mem_append.mp hother with hother | hother
          · exact hentries other hother
          · rwa [List.mem_singleton.mp hother])
        (fun other hother => hkinds other (List.mem_cons_of_mem _ hother))
        (fun other hother => hfiles other (List.mem_cons_of_mem _ hother)) hnodup.2
        (by
          intro other hother hthere
          have hthere : other.name ∈ (assembler.assets.add entry.name).names := hthere
          rw [hadded, List.mem_append, List.mem_singleton] at hthere
          rcases hthere with hthere | hsame
          · exact hnew other (List.mem_cons_of_mem _ hother) hthere
          · exact hnodup.1 (hsame ▸ List.mem_map_of_mem hother))
      refine ⟨assets, ?_, ?_⟩
      · rw [hassets]
        show (assembler.assets.add entry.name).names ++ _ = _
        rw [hadded, List.append_assoc]
        rfl
      · rw [List.cons_append, registerAll, run_bind_of_eq hregister, hothers, List.append_assoc]
        rfl

/-- Media and then other entries are registered when all files are there and the media have
different names, by which they are numbered in order. -/
theorem registerAll_eq {config : Config} {media content : List ChunkEntry}
    (hmedia : ∀ entry ∈ media, entry.kind = .media)
    (hcontent : ∀ entry ∈ content, entry.kind ≠ .media)
    (hfiles : ∀ entry ∈ media ++ content, ∃ bytes, files.content? entry.source.key = some bytes)
    (hnodup : (media.map (·.name)).Nodup) :
    ∃ assets, assets.names = media.map (·.name) ∧
      ((start config).registerAll (media ++ content) :
          ExceptT AssemblyFault (StateM FileMap) Assembler) files =
        (.ok ⟨config, media ++ content, assets⟩, files) := by
  obtain ⟨assets, hassets, hregister⟩ := @registerAll_media (start config) files media content
    nofun hmedia (fun entry hentry => hfiles entry (List.mem_append_left _ hentry)) hnodup
    (fun _ _ => List.not_mem_nil)
  refine ⟨assets, hassets, ?_⟩
  rw [hregister, registerAll_content hcontent
    fun entry hentry => hfiles entry (List.mem_append_right _ hentry)]
  rfl

/-- Entries whose files can all be prepared are all written. -/
theorem exists_disposes {look : Path → Except FileFault Bytes} {entries : List ChunkEntry}
    (h : ∀ entry ∈ entries, ∃ content prepared, look entry.source = .ok content ∧
      assembler.prepare entry content = .ok prepared) :
    ∃ dispositions, assembler.Disposes look entries dispositions ∧
      skippedChunks (entries.zip dispositions) = [] := by
  induction entries with
  | nil => exact ⟨[], .nil, rfl⟩
  | cons entry entries ih =>
      obtain ⟨content, prepared, hread, hprepare⟩ := h entry (List.mem_cons_self ..)
      obtain ⟨dispositions, hdisposes, hskipped⟩ :=
        ih fun other hother => h other (List.mem_cons_of_mem _ hother)
      have hdispose : assembler.dispose (assembler.prepare entry content) =
          .ok (.written prepared) := by
        rw [hprepare]
        rfl
      exact ⟨.written prepared :: dispositions, .cons hread hdispose hdisposes, hskipped⟩

/-- On a map of files a container is finished when something becomes of every entry and the container can
be built, and its file is the only one that changes. -/
theorem finalize_eq_ok_of_fileMap {clock : UInt32} {output : Path} {after : FileMap}
    {report : AssemblyReport} :
    (assembler.finalize clock output : ExceptT AssemblyFault (StateM FileMap) AssemblyReport)
          files = (.ok report, after) ↔
      ∃ dispositions bytes, assembler.Disposes files.read assembler.entries dispositions ∧
        assembler.Builds clock (assembler.config.resolveOutput output) dispositions bytes report ∧
        after = files.write (assembler.config.resolveOutput output) bytes := by
  rw [finalize_eq_ok fun _ _ => rfl]
  constructor
  · rintro ⟨-, admitted, dispositions, bytes, hadmits, hdisposes, hbuilds, hplace⟩
    cases hadmits
    cases hplace
    exact ⟨dispositions, bytes, hdisposes, hbuilds, rfl⟩
  · rintro ⟨dispositions, bytes, hdisposes, hbuilds, rfl⟩
    exact ⟨hdisposes.length_eq ▸ hbuilds.1.count, files, dispositions, bytes, rfl, hdisposes, hbuilds,
      rfl⟩

end Assembler

end StageArchive
