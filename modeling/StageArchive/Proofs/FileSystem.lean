import StageArchive.FileSystem
import StageArchive.Proofs.Outcome
/-!
# A file that was put in place can be read

Putting a file in place changes what lies at one location only, which is no directory's, so all paths
still lead where they led before: the file is read from its path, as `read_of_place` says, and every
path that leads elsewhere leads to the same content, as `content?_insert_of_ne` does.
-/

namespace StageArchive.FileSystem

/-- What is put at a location lies there. -/
theorem entry_insert_self {system : FileSystem} {location : Location} (h : location ≠ [])
    (entry : FileEntry) : entry? (system.insert location entry) location = some entry := by
  unfold entry? insert
  rw [if_neg h, List.find?_cons_of_pos (by simp)]
  rfl

/-- What lies elsewhere stays. -/
theorem entry_insert_of_ne {system : FileSystem} {location other : Location}
    (h : other ≠ location) (entry : FileEntry) :
    entry? (system.insert location entry) other = system.entry? other := by
  unfold entry? insert
  by_cases hroot : other = []
  · rw [if_pos hroot, if_pos hroot]
  · rw [if_neg hroot, if_neg hroot, List.find?_cons_of_neg (by simp [Ne.symm h]),
      List.find?_filter]
    have hsame (item : Location × FileEntry) :
        decide (decide (item.1 ≠ location) = true ∧ decide (item.1 = other) = true) =
          decide (item.1 = other) := by
      by_cases hitem : item.1 = other
      · simp [hitem, h]
      · simp [hitem]
    simp only [hsame]

/-- Where a file is put at a place that was no directory's, all paths lead where they led before. -/
theorem follow_insert {system : FileSystem} {here location target : Location}
    {parts : List String} {content : Bytes} (hroot : location ≠ [])
    (hfile : system.entry? location ≠ some .directory) :
    (system.insert location (.file content)).follow here parts = .ok target ↔
      system.follow here parts = .ok target := by
  induction parts generalizing here with
  | nil => exact Iff.rfl
  | cons part parts ih =>
      unfold follow
      by_cases hhere : here = location
      · -- A file is on the way now; before there was a file or nothing, but no directory.
        rw [hhere, entry_insert_self hroot]
        cases hentry : system.entry? location with
        | none => exact ⟨nofun, nofun⟩
        | some found =>
            cases found with
            | directory => exact absurd hentry hfile
            | file other => exact Iff.rfl
      · rw [entry_insert_of_ne hhere]
        split
        · exact Iff.rfl
        · exact Iff.rfl
        · split
          · exact ih
          · split
            · exact ih
            · split
              · exact Iff.rfl
              · exact ih

/-- Parts lose nothing when as many are left. -/
theorem dropEmptyEnd_eq_self {parts : List String}
    (h : ¬ (dropEmptyEnd parts).length < parts.length) : dropEmptyEnd parts = parts := by
  have hsuffix := List.dropWhile_suffix (l := parts.reverse) (· == "")
  have hlength : parts.reverse.length ≤ (parts.reverse.dropWhile (· == "")).length := by
    rw [dropEmptyEnd, List.length_reverse] at h
    rw [List.length_reverse]
    omega
  rw [dropEmptyEnd, hsuffix.eq_of_length_le hlength, List.reverse_reverse]

/-- A path without slashes at its end leads where it leads with them left off. -/
theorem locate_of_locateBare {system : FileSystem} {path : Path} {location : Location}
    (h : system.locateBare path = .ok location) (hparts : dropEmptyEnd path.parts = path.parts) :
    system.locate path = .ok location := by
  rwa [locateBare, hparts] at h

/-- Where a file is put at a place that was no directory's, all paths lead where they led before. -/
theorem locate_insert {system : FileSystem} {path : Path} {location target : Location}
    {content : Bytes} (hroot : location ≠ [])
    (hfile : system.entry? location ≠ some .directory) :
    (system.insert location (.file content)).locate path = .ok target ↔
      system.locate path = .ok target := by
  unfold locate
  split
  · exact Iff.rfl
  · split
    · exact Iff.rfl
    · exact follow_insert hroot hfile

/-- A complete file is put at the location that its path leads to, which is not a directory's. -/
theorem exists_location_of_place {system changed : FileSystem} {path : Path} {content : Bytes}
    (h : system.place path content = .ok changed) :
    ∃ location, system.locate path = .ok location ∧ location ≠ [] ∧
      system.entry? location ≠ some .directory ∧
      changed = system.insert location (.file content) := by
  unfold place at h
  dsimp only at h
  split at h
  · cases h
  · obtain ⟨location, hlocation, h⟩ := bind_eq_ok.mp h
    split at h
    · cases h
    · cases h
    · cases h
    · split at h
      · cases h
      · rename_i hslashes
        split at h
        · cases h
        · rename_i hfile
          cases h
          have hroot : location ≠ [] := by
            rintro rfl
            exact hfile rfl
          exact ⟨location,
            locate_of_locateBare hlocation (dropEmptyEnd_eq_self hslashes), hroot, hfile, rfl⟩

/-- A file is read from every path that leads to it. -/
theorem read_of_locate {system : FileSystem} {path : Path} {location : Location} {content : Bytes}
    (hlocate : system.locate path = .ok location)
    (hentry : system.entry? location = some (.file content)) : system.read path = .ok content := by
  refine bind_eq_ok.mpr ⟨location, hlocate, ?_⟩
  rw [hentry]
  rfl

/-- A complete file is read from the path at which it was put in place. -/
theorem read_of_place {system changed : FileSystem} {path : Path} {content : Bytes}
    (h : system.place path content = .ok changed) : changed.read path = .ok content := by
  obtain ⟨location, hlocate, hroot, hfile, rfl⟩ := exists_location_of_place h
  exact read_of_locate ((locate_insert hroot hfile).mpr hlocate) (entry_insert_self hroot _)

/-- The content of a file, for a path that leads to one. -/
def content? (system : FileSystem) (path : Path) : Option Bytes :=
  (system.read path).toOption

/-- The content of a file is what lies where its path leads. -/
theorem content?_eq_some {system : FileSystem} {path : Path} {content : Bytes} :
    system.content? path = some content ↔ ∃ location,
      system.locate path = .ok location ∧ system.entry? location = some (.file content) := by
  have hread : system.content? path = some content ↔ system.read path = .ok content := by
    unfold content?
    cases system.read path with
    | error fault => exact ⟨nofun, nofun⟩
    | ok other => simp [Except.toOption]
  rw [hread]
  constructor
  · intro h
    obtain ⟨location, hlocate, h⟩ := bind_eq_ok.mp h
    split at h
    · cases h
    · cases h
    · rename_i hentry
      cases h
      exact ⟨location, hlocate, hentry⟩
  · rintro ⟨location, hlocate, hentry⟩
    exact read_of_locate hlocate hentry

/-- A file that is put somewhere is the content of every path that leads there. -/
theorem content?_insert_self {system : FileSystem} {location : Location} {content : Bytes}
    {path : Path} (hroot : location ≠ []) (hfile : system.entry? location ≠ some .directory)
    (hpath : system.locate path = .ok location) :
    (system.insert location (.file content)).content? path = some content :=
  content?_eq_some.mpr
    ⟨location, (locate_insert hroot hfile).mpr hpath, entry_insert_self hroot _⟩

/-- Paths that lead elsewhere keep their content. -/
theorem content?_insert_of_ne {system : FileSystem} {location : Location} {content : Bytes}
    {path : Path} (hroot : location ≠ []) (hfile : system.entry? location ≠ some .directory)
    (hpath : system.locate path ≠ .ok location) :
    (system.insert location (.file content)).content? path = system.content? path := by
  ext found
  simp only [content?_eq_some, locate_insert hroot hfile]
  refine exists_congr fun target => and_congr_right fun htarget => ?_
  rw [entry_insert_of_ne]
  rintro rfl
  exact hpath htarget

/-- An operation succeeds when it gives a changed file system, and leaves that one. -/
theorem change_eq_ok {operation : FileSystem → Except FileFault FileSystem}
    {system changed : FileSystem} :
    change operation system = (.ok (), changed) ↔ operation system = .ok changed := by
  unfold change
  split
  · rename_i other hother
    rw [hother]
    constructor
    · intro h
      cases h
      rfl
    · intro h
      cases h
      rfl
  · rename_i fault hfault
    rw [hfault]
    constructor
    · intro h
      cases h
    · intro h
      cases h

end StageArchive.FileSystem
