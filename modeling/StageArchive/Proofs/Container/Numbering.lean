import StageArchive.Proofs.Container.Registration
/-!
# The media of a container are numbered by their places

Entries are registered one by one, and a call may fail: the file may be missing, a medium may come
after other entries or repeat a name. `Assembler.enroll` is a call that changes an assembler as it
goes and numbers a medium before it knows that the name is new; `enroll_eq` says that it is still
`Assembler.register` with a failed call undone. `afterCalls_in_step` then says that whatever calls are
made, the number of a medium is its place among the entries.
-/

namespace StageArchive.Assembler

section Calls

variable {m : Type → Type} [Monad m] [FileAccess m]

/-- Registers an entry in an assembler that is changed as the call goes on: its answer, and the
assembler after it. -/
def enroll (assembler : Assembler) (entry : ChunkEntry) :
    m (Except AssemblyFault Unit × Assembler) := do
  let mut assembler := assembler
  if !(← FileAccess.isFile entry.source) then
    return (.error (.missingSource entry.kind entry.name entry.source), assembler)
  if entry.kind = .media then
    if let some content := assembler.entries.find? (·.kind ≠ .media) then
      return (.error (.mediaAfterContent entry.name content.name content.kind), assembler)
    let (assets, _, isNew) := assembler.assets.insert entry.name
    assembler := { assembler with assets := assets }
    if !isNew then return (.error (.duplicateMedia entry.name), assembler)
  return (.ok (), { assembler with entries := assembler.entries ++ [entry] })

/-- The answer of a call and the assembler after it, from the outcome of registering. -/
def settle (assembler : Assembler) :
    Except AssemblyFault Assembler → Except AssemblyFault Unit × Assembler
  | .ok after => (.ok (), after)
  | .error fault => (.error fault, assembler)

/-- A call changes nothing when it fails, and otherwise what registering changes. -/
theorem enroll_eq [LawfulMonad m] (assembler : Assembler) (entry : ChunkEntry) :
    (assembler.enroll entry : m _) =
      assembler.settle <$> (assembler.register entry : ExceptT AssemblyFault m Assembler).run := by
  unfold enroll register
  rw [ExceptT.run_mk, map_bind]
  refine bind_congr fun isThere => ?_
  cases isThere with
  | false => simp [settle]
  | true =>
      by_cases hkind : entry.kind = .media
      · cases hcontent : assembler.entries.find? (·.kind ≠ .media) with
        | some content =>
            simp only [accept, hkind, hcontent, if_true, map_pure]
            rfl
        | none =>
            simp only [accept, hkind, hcontent, if_true, map_pure, NameIndex.isSome_number?]
            -- A name that is there is numbered again without a change to the index.
            by_cases hname : entry.name ∈ assembler.assets.names
            · simp [NameIndex.insert, hname, NameIndex.add_of_mem hname, settle]
            · simp [NameIndex.insert, hname, settle]
      · simp only [accept, hkind, if_false, if_true, map_pure]
        rfl

end Calls

/-- What a call on a file system answers, and the assembler after it. -/
def call (assembler : Assembler) (files : FileSystem) (entry : ChunkEntry) :
    Except AssemblyFault Unit × Assembler :=
  ((assembler.enroll entry : StateM FileSystem _) files).1

/-- A call on a file system registers the entry or answers why not. -/
theorem call_eq (assembler : Assembler) (files : FileSystem) (entry : ChunkEntry) :
    assembler.call files entry = assembler.settle
      (if files.isFile entry.source then assembler.accept entry
        else .error (.missingSource entry.kind entry.name entry.source)) := by
  have hfile : (FileAccess.isFile entry.source : StateM FileSystem Bool) files =
      (files.isFile entry.source, files) := rfl
  rw [call, enroll_eq]
  exact congrArg (fun outcome => assembler.settle outcome.1) (register_run assembler hfile)

/-- What is accepted: anything but a medium, or a medium with a new name behind media only. -/
theorem accept_eq_ok {assembler after : Assembler} {entry : ChunkEntry}
    (h : assembler.accept entry = .ok after) :
    (entry.kind ≠ .media ∧ after = { assembler with entries := assembler.entries ++ [entry] }) ∨
      (entry.kind = .media ∧ (∀ other ∈ assembler.entries, other.kind = .media) ∧
        entry.name ∉ assembler.assets.names ∧
        after = { assembler with
          entries := assembler.entries ++ [entry]
          assets := assembler.assets.add entry.name }) := by
  by_cases hkind : entry.kind = .media
  · unfold accept at h
    rw [if_pos hkind] at h
    split at h
    · cases h
    · rename_i hcontent
      rw [NameIndex.isSome_number?] at h
      split at h
      · cases h
      · rename_i hname
        cases h
        refine .inr ⟨hkind, ?_, by simpa using hname, rfl⟩
        intro other hother
        simpa using List.find?_eq_none.mp hcontent other hother
  · rw [accept_of_ne hkind] at h
    cases h
    exact .inl ⟨hkind, rfl⟩

/-- What is refused: a medium behind another entry, or one whose name is there. -/
theorem accept_eq_error {assembler : Assembler} {entry : ChunkEntry} {fault : AssemblyFault}
    (h : assembler.accept entry = .error fault) :
    entry.kind = .media ∧
      ((∃ content ∈ assembler.entries, content.kind ≠ .media ∧
          fault = .mediaAfterContent entry.name content.name content.kind) ∨
        entry.name ∈ assembler.assets.names ∧ fault = .duplicateMedia entry.name) := by
  unfold accept at h
  split at h
  · rename_i hmedium
    refine ⟨hmedium, ?_⟩
    split at h
    · rename_i content hcontent
      cases h
      have hkind := List.find?_some hcontent
      exact .inl ⟨content, List.mem_of_find?_eq_some hcontent, by simpa using hkind, rfl⟩
    · rw [NameIndex.isSome_number?] at h
      split at h
      · rename_i hname
        cases h
        exact .inr ⟨by simpa using hname, rfl⟩
      · cases h
  · cases h

/-- The assembler after calls, each with the files that are there at its time. -/
def afterCalls (assembler : Assembler) : List (FileSystem × ChunkEntry) → Assembler
  | [] => assembler
  | (files, entry) :: calls => (assembler.call files entry).2.afterCalls calls

/-- Media come first, and the numbered names are theirs in order. -/
structure InStep (assembler : Assembler) (media content : List ChunkEntry) : Prop where
  entries : assembler.entries = media ++ content
  names : assembler.assets.names = media.map (·.name)
  media_kind : ∀ entry ∈ media, entry.kind = .media
  content_kind : ∀ entry ∈ content, entry.kind ≠ .media

/-- An assembler without entries is in step. -/
theorem inStep_start (config : Config) : (start config).InStep [] [] :=
  ⟨rfl, rfl, nofun, nofun⟩

/-- An entry that is accepted leaves an assembler in step. -/
theorem InStep.of_accept {assembler after : Assembler} {media content : List ChunkEntry}
    {entry : ChunkEntry} (h : assembler.InStep media content)
    (haccept : assembler.accept entry = .ok after) :
    ∃ media content, after.InStep media content := by
  rcases accept_eq_ok haccept with ⟨hkind, rfl⟩ | ⟨hkind, hmedia, hname, rfl⟩
  · refine ⟨media, content ++ [entry], ?_, h.names, h.media_kind, ?_⟩
    · show assembler.entries ++ [entry] = _
      rw [h.entries, List.append_assoc]
    · intro other hother
      rcases List.mem_append.mp hother with hother | hother
      · exact h.content_kind other hother
      · rwa [List.mem_singleton.mp hother]
  · -- Behind media only there is no other content yet.
    have hnone : content = [] := by
      refine List.eq_nil_iff_forall_not_mem.mpr fun other hother => ?_
      refine h.content_kind other hother (hmedia other ?_)
      rw [h.entries]
      exact List.mem_append_right media hother
    refine ⟨media ++ [entry], [], ?_, ?_, ?_, nofun⟩
    · show assembler.entries ++ [entry] = _
      rw [h.entries, hnone, List.append_nil, List.append_nil]
    · show (assembler.assets.add entry.name).names = _
      rw [NameIndex.names_add_of_notMem hname, h.names, List.map_append]
      rfl
    · intro other hother
      rcases List.mem_append.mp hother with hother | hother
      · exact h.media_kind other hother
      · rwa [List.mem_singleton.mp hother]

/-- A call, whether it succeeds or fails, leaves an assembler in step. -/
theorem InStep.of_call {assembler : Assembler} {media content : List ChunkEntry}
    (h : assembler.InStep media content) (files : FileSystem) (entry : ChunkEntry) :
    ∃ media content, (assembler.call files entry).2.InStep media content := by
  rw [call_eq]
  split
  · cases haccept : assembler.accept entry with
    | error fault => exact ⟨media, content, h⟩
    | ok after => exact h.of_accept haccept
  · exact ⟨media, content, h⟩

/-- Calls leave an assembler in step. -/
theorem InStep.of_calls {assembler : Assembler} {media content : List ChunkEntry}
    (h : assembler.InStep media content) (calls : List (FileSystem × ChunkEntry)) :
    ∃ media content, (assembler.afterCalls calls).InStep media content := by
  induction calls generalizing assembler media content with
  | nil => exact ⟨media, content, h⟩
  | cons first calls ih =>
      obtain ⟨media, content, hnext⟩ := h.of_call first.1 first.2
      exact ih hnext

/-- Media come before other entries and have different names. -/
def MediaFirst (entries : List ChunkEntry) : Prop :=
  entries.Pairwise fun first second =>
    second.kind = .media → first.kind = .media ∧ first.name ≠ second.name

/-- Entries with media first are not refused in an assembler in step. -/
theorem InStep.not_refused {assembler : Assembler} {media content others : List ChunkEntry}
    {entry : ChunkEntry} {fault : AssemblyFault} (h : assembler.InStep media content)
    (hfirst : MediaFirst (assembler.entries ++ entry :: others)) :
    assembler.accept entry ≠ .error fault := by
  intro haccept
  obtain ⟨hkind, hrefused⟩ := accept_eq_error haccept
  have hbefore : ∀ other ∈ assembler.entries, other.kind = .media ∧ other.name ≠ entry.name :=
    fun other hother =>
      (List.pairwise_append.mp hfirst).2.2 other hother entry (List.mem_cons_self ..) hkind
  rcases hrefused with ⟨other, hother, hne, -⟩ | ⟨hname, -⟩
  · exact hne (hbefore other hother).1
  · rw [h.names] at hname
    obtain ⟨other, hother, hsame⟩ := List.mem_map.mp hname
    have hthere : other ∈ assembler.entries := by
      rw [h.entries]
      exact List.mem_append_left content hother
    exact (hbefore other hthere).2 hsame

/-- Registering entries with media first in order fails only for a file that is not there. -/
theorem InStep.of_registerAll_error {σ : Type} [FileAccess (StateM σ)] {assembler : Assembler}
    {media content entries : List ChunkEntry} {before after : σ} {fault : AssemblyFault}
    (h : assembler.InStep media content) (hfirst : MediaFirst (assembler.entries ++ entries))
    (hrun : (assembler.registerAll entries : ExceptT AssemblyFault (StateM σ) Assembler) before =
      (.error fault, after)) :
    ∃ entry ∈ entries, fault = .missingSource entry.kind entry.name entry.source := by
  induction entries generalizing assembler media content before with
  | nil => cases hrun
  | cons entry entries ih =>
      rcases hfile : (FileAccess.isFile entry.source : StateM σ Bool) before with ⟨found, middle⟩
      have hregister := register_run assembler hfile
      cases found with
      | false =>
          rw [registerAll, run_bind_of_error hregister] at hrun
          cases hrun
          exact ⟨entry, List.mem_cons_self .., rfl⟩
      | true =>
          cases haccept : assembler.accept entry with
          | error refusal => exact absurd haccept (h.not_refused hfirst)
          | ok next =>
              obtain ⟨media, content, hnext⟩ := h.of_accept haccept
              have hentries : next.entries = assembler.entries ++ [entry] := by
                rcases accept_eq_ok haccept with ⟨-, rfl⟩ | ⟨-, -, -, rfl⟩ <;> rfl
              rw [if_pos rfl, haccept] at hregister
              rw [registerAll, run_bind_of_eq hregister] at hrun
              rw [List.append_cons, ← hentries] at hfirst
              obtain ⟨other, hother, hfault⟩ := ih hnext hfirst hrun
              exact ⟨other, List.mem_cons_of_mem _ hother, hfault⟩

/-- The number of a name in an assembler in step is the place of the medium with this name. -/
theorem InStep.number?_iff {assembler : Assembler} {media content : List ChunkEntry}
    (h : assembler.InStep media content) (name : String) (number : UInt32) :
    assembler.assets.number? name = some number ↔
      ∃ place entry, assembler.entries[place]? = some entry ∧ entry.kind = .media ∧
        entry.name = name ∧ number = UInt32.ofNat place := by
  rw [NameIndex.number?_eq_some, h.names, h.entries]
  constructor
  · intro hparts
    obtain ⟨place, hplace, rfl⟩ := hparts
    rw [List.getElem?_map] at hplace
    obtain ⟨entry, hentry, rfl⟩ := Option.map_eq_some_iff.mp hplace
    have hlt := (List.getElem?_eq_some_iff.mp hentry).1
    refine ⟨place, entry, ?_, h.media_kind entry (List.mem_of_getElem? hentry), rfl, rfl⟩
    rwa [List.getElem?_append_left hlt]
  · intro hparts
    obtain ⟨place, entry, hentry, hkind, rfl, rfl⟩ := hparts
    refine ⟨place, ?_, rfl⟩
    -- Behind the media no entry is a medium.
    have hlt : place < media.length := by
      refine Nat.lt_of_not_le fun hle => ?_
      rw [List.getElem?_append_right hle] at hentry
      exact h.content_kind entry (List.mem_of_getElem? hentry) hkind
    rw [List.getElem?_append_left hlt] at hentry
    rw [List.getElem?_map, hentry]
    rfl

/-- While the places of all entries are words, a number leads to the medium itself. -/
theorem InStep.number?_iff_toNat {assembler : Assembler} {media content : List ChunkEntry}
    (h : assembler.InStep media content) (hlength : assembler.entries.length ≤ 2 ^ 32)
    (name : String) (number : UInt32) :
    assembler.assets.number? name = some number ↔
      ∃ entry, assembler.entries[number.toNat]? = some entry ∧ entry.kind = .media ∧
        entry.name = name := by
  rw [h.number?_iff]
  constructor
  · intro hparts
    obtain ⟨place, entry, hentry, hkind, hname, rfl⟩ := hparts
    have hlt := (List.getElem?_eq_some_iff.mp hentry).1
    have hword : place < 2 ^ 32 := Nat.lt_of_lt_of_le hlt hlength
    rw [UInt32.toNat_ofNat_of_lt' hword]
    exact ⟨entry, hentry, hkind, hname⟩
  · intro hparts
    obtain ⟨entry, hentry, hkind, hname⟩ := hparts
    exact ⟨number.toNat, entry, hentry, hkind, hname, UInt32.ofNat_toNat.symm⟩

/-- A call that fails leaves the assembler as it was, and says that the file is missing, that the
medium comes too late or that its name is there. -/
theorem call_eq_error {assembler after : Assembler} {files : FileSystem} {entry : ChunkEntry}
    {fault : AssemblyFault} (h : assembler.call files entry = (.error fault, after)) :
    after = assembler ∧
      (fault = .missingSource entry.kind entry.name entry.source ∨
        (∃ content ∈ assembler.entries, content.kind ≠ .media ∧
          fault = .mediaAfterContent entry.name content.name content.kind) ∨
        fault = .duplicateMedia entry.name) := by
  rw [call_eq] at h
  split at h
  · cases haccept : assembler.accept entry with
    | error refusal =>
        rw [haccept] at h
        cases h
        obtain ⟨-, hlate | ⟨-, hduplicate⟩⟩ := accept_eq_error haccept
        · exact ⟨rfl, .inr (.inl hlate)⟩
        · exact ⟨rfl, .inr (.inr hduplicate)⟩
    | ok changed =>
        rw [haccept] at h
        cases h
  · cases h
    exact ⟨rfl, .inl rfl⟩

/-- Whatever calls are made, the media come first and have different names, there are as many numbers as
media, and a name has a number exactly when a medium with this name is at its place, which is what
the number counts. A call that fails changes nothing. -/
theorem afterCalls_in_step (config : Config) (calls : List (FileSystem × ChunkEntry)) :
    ∃ assembler media content, (start config).afterCalls calls = assembler ∧
      assembler.entries = media ++ content ∧ (∀ entry ∈ media, entry.kind = .media) ∧
      (∀ entry ∈ content, entry.kind ≠ .media) ∧ (media.map (·.name)).Nodup ∧
      assembler.assets.size = media.length ∧
      (∀ name number, assembler.assets.number? name = some number ↔
        ∃ place entry, assembler.entries[place]? = some entry ∧ entry.kind = .media ∧
          entry.name = name ∧ number = UInt32.ofNat place) ∧
      (assembler.entries.length ≤ 2 ^ 32 → ∀ name number,
        assembler.assets.number? name = some number ↔
          ∃ entry, assembler.entries[number.toNat]? = some entry ∧ entry.kind = .media ∧
            entry.name = name) ∧
      ∀ files entry fault after, assembler.call files entry = (.error fault, after) →
        after = assembler ∧
          (fault = .missingSource entry.kind entry.name entry.source ∨
            (∃ content ∈ assembler.entries, content.kind ≠ .media ∧
              fault = .mediaAfterContent entry.name content.name content.kind) ∨
            fault = .duplicateMedia entry.name) := by
  obtain ⟨media, content, h⟩ := (inStep_start config).of_calls calls
  refine ⟨_, media, content, rfl, h.entries, h.media_kind, h.content_kind, ?_, ?_, h.number?_iff,
    h.number?_iff_toNat, fun _ _ _ _ => call_eq_error⟩
  · rw [← h.names]
    exact NameIndex.nodup _
  · rw [NameIndex.size, h.names, List.length_map]

/-- A medium, the same again, one whose file is missing, a set, and a medium that comes too late. -/
def mixedCalls : List (FileSystem × ChunkEntry) :=
  [(twoFiles, ⟨.media, ⟨"a.mrfl"⟩, "a"⟩), (twoFiles, ⟨.media, ⟨"a.mrfl"⟩, "a"⟩),
    (twoFiles, ⟨.media, ⟨"b.mrfl"⟩, "b"⟩), (twoFiles, ⟨.set, ⟨"s.set"⟩, "s"⟩),
    (twoFiles, ⟨.media, ⟨"a.mrfl"⟩, "c"⟩)]

/-- Of the mixed calls a medium and a set remain, and only the medium has a number. -/
theorem afterCalls_in_step_mixed :
    (start .standard).afterCalls mixedCalls = twoEntries ∧
      ∀ name number, twoEntries.assets.number? name = some number ↔
        ∃ entry, twoEntries.entries[number.toNat]? = some entry ∧ entry.kind = .media ∧
          entry.name = name := by
  have hcalls : (start .standard).afterCalls mixedCalls = twoEntries := by rfl
  obtain ⟨assembler, _, _, hassembler, -, -, -, -, -, -, hnumbers, -⟩ :=
    afterCalls_in_step .standard mixedCalls
  obtain rfl : twoEntries = assembler := hcalls.symm.trans hassembler
  exact ⟨hcalls, hnumbers (by decide)⟩

end StageArchive.Assembler
