import Mathlib.Data.List.Sort
import StageArchive.Symbol.Table
/-!
# Names in order, each once

Names and classes are put in order in the same way, names by themselves and classes by their names.
`sortBy` is that way for any key: the keys it keeps are those of the list, in increasing order, and a
list in increasing order stays as it is.
-/

namespace StageArchive.Symbol

variable {α : Type} {key : α → String}

/-- Inserts an item into a list increasing by key, unless one with that key is there. -/
def insertBy (key : α → String) (item : α) : List α → List α
  | [] => [item]
  | head :: rest =>
    if key item < key head then item :: head :: rest
    else if key item = key head then head :: rest
    else head :: insertBy key item rest

/-- The items of a list by increasing key; of one key the first is kept. -/
def sortBy (key : α → String) (items : List α) : List α :=
  items.foldl (fun sorted item => insertBy key item sorted) []

/-- A list is in increasing order of keys. -/
def IsIncreasing (key : α → String) (items : List α) : Prop :=
  items.Pairwise fun first second => key first < key second

/-- Names are inserted by themselves. -/
theorem insertName_eq (name : String) (names : List String) :
    insertName name names = insertBy id name names := by
  induction names with
  | nil => rfl
  | cons head rest ih =>
      rw [insertName, insertBy, ih]
      rfl

/-- Classes are inserted by their names. -/
theorem insertClass_eq (info : ClassInfo) (classes : List ClassInfo) :
    insertClass info classes = insertBy (·.name) info classes := by
  induction classes with
  | nil => rfl
  | cons head rest ih => rw [insertClass, insertBy, ih]

/-- Names are sorted by themselves. -/
theorem sortNames_eq (names : List String) : sortNames names = sortBy id names := by
  simp only [sortNames, sortBy, insertName_eq]

/-- Classes are sorted by their names. -/
theorem sortClasses_eq (classes : List ClassInfo) :
    sortClasses classes = sortBy (·.name) classes := by
  simp only [sortClasses, sortBy, insertClass_eq]

/-- What is in a list after an insertion was inserted or there before. -/
theorem eq_or_mem_of_mem_insertBy {item other : α} {items : List α}
    (h : other ∈ insertBy key item items) : other = item ∨ other ∈ items := by
  induction items with
  | nil => exact .inl (List.mem_singleton.mp h)
  | cons head rest ih =>
      rw [insertBy] at h
      split at h
      · exact List.mem_cons.mp h
      · split at h
        · exact .inr h
        · rcases List.mem_cons.mp h with rfl | h
          · exact .inr (List.mem_cons_self ..)
          · exact (ih h).imp_right (List.mem_cons_of_mem head)

/-- The keys of a list after an insertion are those before it and the key inserted. -/
theorem mem_map_insertBy {item : α} {items : List α} {name : String} :
    name ∈ (insertBy key item items).map key ↔ name = key item ∨ name ∈ items.map key := by
  induction items with
  | nil => simp [insertBy]
  | cons head rest ih =>
      rw [insertBy]
      split
      · rw [List.map_cons, List.mem_cons]
      · split
        · rename_i hsame
          rw [List.map_cons, List.mem_cons, hsame]
          constructor
          · exact .inr
          · rintro (rfl | h)
            · exact .inl rfl
            · exact h
        · rw [List.map_cons, List.mem_cons, ih, List.map_cons, List.mem_cons]
          exact or_left_comm

/-- An insertion keeps a list in increasing order. -/
theorem isIncreasing_insertBy {item : α} {items : List α} (h : IsIncreasing key items) :
    IsIncreasing key (insertBy key item items) := by
  induction items with
  | nil => exact List.pairwise_singleton ..
  | cons head rest ih =>
      obtain ⟨hhead, hrest⟩ := List.pairwise_cons.mp h
      rw [insertBy]
      split
      · rename_i hbefore
        refine List.pairwise_cons.mpr ⟨?_, h⟩
        intro other hother
        rcases List.mem_cons.mp hother with rfl | hother
        · exact hbefore
        · exact String.lt_trans hbefore (hhead other hother)
      · rename_i hbefore
        split
        · exact h
        · rename_i hne
          have hbehind : key head < key item :=
            String.not_le.mp fun hle =>
              hne (String.le_antisymm hle (String.not_lt.mp hbefore))
          refine List.pairwise_cons.mpr ⟨?_, ih hrest⟩
          intro other hother
          rcases eq_or_mem_of_mem_insertBy hother with rfl | hother
          · exact hbehind
          · exact hhead other hother

/-- An item whose key is behind all others is inserted at the end. -/
theorem insertBy_of_forall_lt {item : α} {items : List α}
    (h : ∀ other ∈ items, key other < key item) : insertBy key item items = items ++ [item] := by
  induction items with
  | nil => rfl
  | cons head rest ih =>
      have hhead := h head (List.mem_cons_self ..)
      have hne : key item ≠ key head := by
        intro hsame
        rw [hsame] at hhead
        exact String.lt_irrefl _ hhead
      rw [insertBy, if_neg (String.lt_asymm hhead), if_neg hne,
        ih fun other hother => h other (List.mem_cons_of_mem _ hother)]
      rfl

/-- The keys after several insertions are those before and those inserted. -/
theorem mem_map_foldl_insertBy {sorted items : List α} {name : String} :
    name ∈ (items.foldl (fun sorted item => insertBy key item sorted) sorted).map key ↔
      name ∈ sorted.map key ∨ name ∈ items.map key := by
  induction items generalizing sorted with
  | nil => simp
  | cons item items ih =>
      rw [List.foldl_cons, ih, mem_map_insertBy, List.map_cons, List.mem_cons, or_assoc,
        or_left_comm]

/-- Items in increasing order are inserted behind those before them. -/
theorem foldl_insertBy_of_isIncreasing {sorted items : List α}
    (h : IsIncreasing key (sorted ++ items)) :
    items.foldl (fun sorted item => insertBy key item sorted) sorted = sorted ++ items := by
  induction items generalizing sorted with
  | nil => exact (List.append_nil _).symm
  | cons item items ih =>
      have hbefore : ∀ other ∈ sorted, key other < key item := fun other hother =>
        (List.pairwise_append.mp h).2.2 other hother item (List.mem_cons_self ..)
      rw [List.append_cons] at h
      rw [List.foldl_cons, insertBy_of_forall_lt hbefore, ih h, ← List.append_cons]

/-- Sorting keeps the keys of a list. -/
theorem mem_map_sortBy {items : List α} {name : String} :
    name ∈ (sortBy key items).map key ↔ name ∈ items.map key := by
  rw [sortBy, mem_map_foldl_insertBy]
  simp

/-- Sorting puts a list in increasing order. -/
theorem isIncreasing_sortBy (items : List α) : IsIncreasing key (sortBy key items) :=
  List.foldlRecOn items _ .nil fun _ hsorted _ _ => isIncreasing_insertBy hsorted

/-- A list in increasing order is sorted. -/
theorem IsIncreasing.sortBy_eq {items : List α} (h : IsIncreasing key items) :
    sortBy key items = items :=
  foldl_insertBy_of_isIncreasing h

/-- Lists of names in increasing order are equal when they have the same names. -/
theorem IsIncreasing.eq_of_mem_iff {first second : List String} (hfirst : IsIncreasing id first)
    (hsecond : IsIncreasing id second) (h : ∀ name, name ∈ first ↔ name ∈ second) :
    first = second :=
  have : Std.Irrefl fun first second : String => id first < id second := ⟨String.lt_irrefl⟩
  have : Std.Antisymm fun first second : String => id first < id second :=
    ⟨fun _ _ hlt hback => absurd hback (String.lt_asymm hlt)⟩
  List.Pairwise.eq_of_mem_iff hfirst hsecond h

/-- An item that is inserted is found by its key when none with that key is there. -/
theorem find?_insertBy {item : α} {items : List α} (h : IsIncreasing key items) (name : String) :
    (insertBy key item items).find? (key · == name) =
      (items.find? (key · == name)).or (if key item = name then some item else none) := by
  induction items with
  | nil => simp [insertBy, List.find?_singleton]
  | cons head rest ih =>
      obtain ⟨hhead, hrest⟩ := List.pairwise_cons.mp h
      rw [insertBy]
      split
      · rename_i hbefore
        rw [List.find?_cons]
        by_cases hname : key item = name
        · -- The item goes in front, so every item behind it has a greater key.
          have hnone : (head :: rest).find? (key · == name) = none := by
            refine List.find?_eq_none.mpr fun other hother hsame => ?_
            have hbehind : key item < key other := by
              rcases List.mem_cons.mp hother with rfl | hother
              · exact hbefore
              · exact String.lt_trans hbefore (hhead other hother)
            rw [hname, beq_iff_eq.mp hsame] at hbehind
            exact String.lt_irrefl _ hbehind
          rw [hnone, if_pos hname, beq_iff_eq.mpr hname]
          rfl
        · rw [if_neg hname, Option.or_none, beq_eq_false_iff_ne.mpr hname]
      · split
        · rename_i hsame
          by_cases hname : key item = name
          · have hfound : (head :: rest).find? (key · == name) = some head :=
              List.find?_cons_of_pos (beq_iff_eq.mpr (hsame.symm.trans hname))
            rw [hfound]
            rfl
          · rw [if_neg hname, Option.or_none]
        · rw [List.find?_cons, List.find?_cons, ih hrest]
          split <;> rfl

/-- Of the items with a key the first is kept. -/
theorem find?_sortBy (items : List α) (name : String) :
    (sortBy key items).find? (key · == name) = items.find? (key · == name) := by
  have hfold : ∀ sorted, IsIncreasing key sorted →
      (items.foldl (fun sorted item => insertBy key item sorted) sorted).find? (key · == name) =
        (sorted.find? (key · == name)).or (items.find? (key · == name)) := by
    induction items with
    | nil => exact fun sorted _ => (Option.or_none).symm
    | cons item items ih =>
        intro sorted hsorted
        rw [List.foldl_cons, ih _ (isIncreasing_insertBy hsorted), find?_insertBy hsorted,
          Option.or_assoc, List.find?_cons]
        by_cases hname : key item = name
        · rw [if_pos hname, beq_iff_eq.mpr hname]
          rfl
        · rw [if_neg hname, beq_eq_false_iff_ne.mpr hname]
          rfl
  exact hfold [] .nil

/-- Sorting names keeps them. -/
theorem mem_sortNames {names : List String} {name : String} :
    name ∈ sortNames names ↔ name ∈ names := by
  have h := @mem_map_sortBy String id names name
  rwa [List.map_id, List.map_id, ← sortNames_eq] at h

/-- Sorting names once more changes nothing. -/
theorem sortNames_sortNames (names : List String) : sortNames (sortNames names) = sortNames names := by
  rw [sortNames_eq, sortNames_eq]
  exact (isIncreasing_sortBy names).sortBy_eq

/-- Sorting classes once more changes nothing. -/
theorem sortClasses_sortClasses (classes : List ClassInfo) :
    sortClasses (sortClasses classes) = sortClasses classes := by
  rw [sortClasses_eq, sortClasses_eq]
  exact (isIncreasing_sortBy classes).sortBy_eq

end StageArchive.Symbol
