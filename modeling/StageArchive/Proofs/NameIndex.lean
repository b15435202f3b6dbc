import StageArchive.Arithmetic
import StageArchive.NameIndex
/-!
# Adding names to an index

Names are only ever added at the end, so a number once given to a name stays its number.
`names_addAll` says which names an index has after several were added, and `number?_of_mem` which
number a name has.
-/

namespace StageArchive.NameIndex

/-- The index after several names are added in order. -/
def addAll (index : NameIndex) (names : List String) : NameIndex :=
  names.foldl add index

/-- Adding a name that is there changes nothing. -/
theorem add_of_mem {index : NameIndex} {name : String} (h : name ∈ index.names) :
    index.add name = index := by
  rw [add, dif_pos h]

/-- A new name is added at the end. -/
theorem names_add_of_notMem {index : NameIndex} {name : String} (h : name ∉ index.names) :
    (index.add name).names = index.names ++ [name] := by
  rw [add, dif_neg h]

/-- What is added are the names that were not there, each once and in order of first mention. -/
theorem names_addAll (index : NameIndex) (names : List String) :
    (index.addAll names).names = index.names ++ (names.removeAll index.names).eraseDups := by
  induction names generalizing index with
  | nil => simp [addAll]
  | cons name names ih =>
      show ((index.add name).addAll names).names = _
      rw [ih]
      -- A name that is there is passed over; a new one is there for the names after it.
      by_cases h : name ∈ index.names
      · have hmore : (name :: names).removeAll index.names = names.removeAll index.names := by
          simp [List.removeAll, h]
        rw [add_of_mem h, hmore]
      · have hmore : (name :: names).removeAll index.names =
            name :: names.removeAll index.names := by
          simp [List.removeAll, h]
        have hothers : names.removeAll (index.names ++ [name]) =
            (names.removeAll index.names).filter fun other => !other == name := by
          simp only [List.removeAll, List.filter_filter]
          congr 1
          funext other
          cases hother : other == name <;> simp_all
        rw [names_add_of_notMem h, hmore, hothers, List.eraseDups_cons, List.append_assoc]
        rfl

/-- The names of an index of a list are the names of the list in order of first mention. -/
theorem names_ofList (names : List String) : (ofList names).names = names.eraseDups := by
  have hremoved : names.removeAll empty.names = names :=
    List.filter_eq_self.mpr fun name _ => rfl
  show (empty.addAll names).names = _
  rw [names_addAll, hremoved]
  rfl

/-- Adding names in two parts is adding them all. -/
theorem addAll_append (index : NameIndex) (first second : List String) :
    index.addAll (first ++ second) = (index.addAll first).addAll second :=
  List.foldl_append

/-- A name that is there keeps its place when others are added. -/
theorem idxOf_addAll {index : NameIndex} {name : String} (names : List String)
    (h : name ∈ index.names) :
    (index.addAll names).names.idxOf name = index.names.idxOf name := by
  rw [names_addAll, List.idxOf_append, if_pos h]

/-- The number that an insertion gives is the place of the name afterwards. -/
theorem insert_number (index : NameIndex) (name : String) :
    (index.insert name).2.1 = UInt32.ofNat ((index.add name).names.idxOf name) := by
  show UInt32.ofNat (index.names.idxOf name) = _
  by_cases h : name ∈ index.names
  · rw [add_of_mem h]
  · rw [names_add_of_notMem h, List.idxOf_append, if_neg h, List.idxOf_eq_length h,
      List.idxOf_cons_self, Nat.zero_add]

/-- A name that is there has its place as its number. -/
theorem number?_of_mem {index : NameIndex} {name : String} (h : name ∈ index.names) :
    index.number? name = some (UInt32.ofNat (index.names.idxOf name)) := by
  have hplace : index.names.idxOf? name = some (index.names.idxOf name) := by
    rw [List.idxOf?_eq_some_iff]
    refine ⟨List.idxOf_lt_length_of_mem h, ?_, ?_⟩
    · simp
    · intro place hplace
      simpa using List.not_of_lt_findIdx hplace
  rw [number?, hplace, Option.map_some]

/-- Exactly the names that are there have numbers. -/
theorem isSome_number? (index : NameIndex) (name : String) :
    (index.number? name).isSome = index.names.contains name := by
  by_cases h : name ∈ index.names
  · rw [number?_of_mem h, List.contains_iff_mem.mpr h]
    rfl
  · rw [number?, List.idxOf?_eq_none_iff.mpr h]
    simp [h]

/-- A name's number is the place it has. -/
theorem number?_eq_some {index : NameIndex} {name : String} {number : UInt32} :
    index.number? name = some number ↔
      ∃ place, index.names[place]? = some name ∧ number = UInt32.ofNat place := by
  constructor
  · intro h
    obtain ⟨place, hplace, rfl⟩ := Option.map_eq_some_iff.mp h
    obtain ⟨hlt, hname, -⟩ := List.idxOf?_eq_some_iff.mp hplace
    exact ⟨place, List.getElem?_eq_some_iff.mpr ⟨hlt, hname⟩, rfl⟩
  · intro hparts
    obtain ⟨place, hplace, rfl⟩ := hparts
    obtain ⟨hlt, rfl⟩ := List.getElem?_eq_some_iff.mp hplace
    -- The name has no other place, since names do not repeat.
    rw [number?_of_mem (List.getElem_mem hlt), index.nodup.idxOf_getElem place hlt]

/-- A name that was added to an index is there. -/
theorem mem_addAll {index : NameIndex} {names : List String} {name : String}
    (h : name ∈ index.names ∨ name ∈ names) : name ∈ (index.addAll names).names := by
  rw [names_addAll, List.mem_append, List.mem_eraseDups, List.removeAll, List.mem_filter]
  by_cases hthere : name ∈ index.names
  · exact .inl hthere
  · exact .inr ⟨h.resolve_left hthere, by simpa using hthere⟩

/-- A name that is there keeps its number when others are added. -/
theorem number?_addAll {index : NameIndex} {name : String} (names : List String)
    (h : name ∈ index.names) : (index.addAll names).number? name = index.number? name := by
  rw [number?_of_mem (mem_addAll (.inl h)), number?_of_mem h, idxOf_addAll names h]

/-- The number of a name gives the name back, as long as all numbers are words. -/
theorem name?_of_number? {index : NameIndex} {name : String} {number : UInt32}
    (hsize : index.size ≤ 2 ^ 32) (h : index.number? name = some number) :
    index.name? number = some name := by
  obtain ⟨place, hname, rfl⟩ := number?_eq_some.mp h
  have hlt := (List.getElem?_eq_some_iff.mp hname).1
  have hword : place < 2 ^ 32 := Nat.lt_of_lt_of_le hlt hsize
  rw [name?, UInt32.toNat_ofNat_of_lt' hword, hname]

/-- Adding a name makes an index longer by no more than one. -/
theorem size_add_le (index : NameIndex) (name : String) :
    (index.add name).size ≤ index.size + 1 := by
  by_cases h : name ∈ index.names
  · rw [add_of_mem h]
    exact Nat.le_succ index.size
  · rw [size, names_add_of_notMem h, List.length_append]
    exact Nat.le_refl _

/-- Adding names makes an index longer by no more than their number. -/
theorem size_addAll_le (index : NameIndex) (names : List String) :
    (index.addAll names).size ≤ index.size + names.length := by
  induction names generalizing index with
  | nil => exact Nat.le_refl index.size
  | cons name names ih =>
      have hfirst := size_add_le index name
      have hothers := ih (index.add name)
      show ((index.add name).addAll names).size ≤ index.size + (names.length + 1)
      omega

end StageArchive.NameIndex
