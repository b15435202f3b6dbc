import StageArchive.Arithmetic
import StageArchive.Proofs.Symbol.Sorting
/-!
# Looking up a name

A short list of names is searched from the front, a longer one by halves. In a list in increasing
order both find a name at its place, and nothing but a name of the list. The names of a finished table
are in that order.
-/

namespace StageArchive

namespace Symbol

variable {names : List String} {name other : String} {place : Nat}

/-- Names in increasing order are in the order of their places. -/
theorem IsIncreasing.lt_iff_lt (h : IsIncreasing id names) {before : Nat}
    (hother : names[before]? = some other) (hname : names[place]? = some name) :
    other < name ↔ before < place := by
  obtain ⟨hbefore, rfl⟩ := List.getElem?_eq_some_iff.mp hother
  obtain ⟨hplace, rfl⟩ := List.getElem?_eq_some_iff.mp hname
  have hlt := List.pairwise_iff_getElem.mp h
  constructor
  · intro hnames
    rcases Nat.lt_trichotomy before place with hbefore | rfl | hbehind
    · exact hbefore
    · exact absurd hnames (String.lt_irrefl _)
    · exact absurd (hlt _ _ _ _ hbehind) (String.lt_asymm hnames)
  · exact hlt _ _ _ _

/-- Halving ends at the place of a name in the range. -/
theorem bisect_eq (h : IsIncreasing id names) {base size : Nat} (hrange : base + size ≤ names.length)
    (hbase : base ≤ place) (hsize : place < base + size) (hplace : names[place]? = some name) :
    bisect names name base size = place := by
  fun_induction bisect names name base size with
  | case1 base size hsmall => omega
  | case2 base size hlarge middle ih =>
      have hmiddle : middle < names.length := by omega
      have hnext : (if (names[middle]?).any (name < ·) then base else middle) =
          if place < middle then base else middle := by
        have hother := List.getElem?_eq_getElem hmiddle
        simp only [hother, Option.any_some, decide_eq_true_eq, h.lt_iff_lt hplace hother]
      simp only [dite_eq_ite, hnext] at ih
      rw [hnext]
      refine ih ?_ ?_ ?_ <;> split <;> omega

/-- The place that is found for a name is where it is. -/
theorem place?_eq_some_iff (h : IsIncreasing id names) :
    place? names name = some place ↔ names[place]? = some name := by
  unfold place?
  split
  · rw [List.idxOf?_eq_some_iff]
    constructor
    · rintro ⟨hlength, hsame, -⟩
      exact List.getElem?_eq_some_iff.mpr ⟨hlength, hsame⟩
    · intro hplace
      obtain ⟨hlength, hsame⟩ := List.getElem?_eq_some_iff.mp hplace
      refine ⟨hlength, hsame, fun before hbefore hother => ?_⟩
      have hother := List.getElem?_eq_some_iff.mpr ⟨Nat.lt_trans hbefore hlength, hother⟩
      exact String.lt_irrefl _ ((h.lt_iff_lt hother hplace).mpr hbefore)
  · dsimp only
    constructor
    · intro hfound
      split at hfound
      · rename_i hthere
        cases hfound
        exact hthere
      · cases hfound
    · intro hplace
      have hlength := (List.getElem?_eq_some_iff.mp hplace).1
      rw [bisect_eq h (by omega) (Nat.zero_le _) (by omega) hplace, if_pos hplace]

/-- No place is found for a name that is not there. -/
theorem place?_eq_none_iff (h : IsIncreasing id names) : place? names name = none ↔ name ∉ names := by
  rw [Option.eq_none_iff_forall_ne_some, List.mem_iff_getElem?, not_exists]
  exact forall_congr' fun place => not_congr (place?_eq_some_iff h)

end Symbol

namespace SymbolTable

/-- The names of each namespace are in increasing order. -/
def IsOrdered (table : SymbolTable) : Prop :=
  ∀ space, Symbol.IsIncreasing id (table.names space)

variable {table : SymbolTable} {space : Namespace} {name : String}

/-- The index of a name is its place, as a word. -/
theorem index?_eq_some_iff (h : table.IsOrdered) {index : UInt32} :
    table.index? space name = some index ↔
      ∃ place, (table.names space)[place]? = some name ∧ UInt32.ofNat place = index := by
  simp only [index?, Option.map_eq_some_iff, Symbol.place?_eq_some_iff (h space)]

/-- As long as a word can count the names, a name is the one at its index. -/
theorem name?_of_index? (h : table.IsOrdered) {index : UInt32} (hsize : table.size space ≤ 2 ^ 32)
    (hindex : table.index? space name = some index) : table.name? space index = some name := by
  obtain ⟨place, hplace, rfl⟩ := (index?_eq_some_iff h).mp hindex
  have hword : (UInt32.ofNat place).toNat = place :=
    UInt32.toNat_ofNat_of_lt' (Nat.lt_of_lt_of_le (List.getElem?_eq_some_iff.mp hplace).1 hsize)
  rwa [name?, hword]

/-- Exactly the names of a table have indices. -/
theorem index?_eq_none (h : table.IsOrdered) :
    table.index? space name = none ↔ name ∉ table.names space := by
  rw [index?, Option.map_eq_none_iff, Symbol.place?_eq_none_iff (h space)]

/-- Putting a table in order sorts its names. -/
theorem names_normalize (table : SymbolTable) (space : Namespace) :
    table.normalize.names space = Symbol.sortNames (table.names space) := by
  rw [names, names, normalize, NamespaceMap.get_map]
  cases table.spaces.get space <;> rfl

/-- A table of what was recorded has these names. -/
theorem names_finish (record : SymbolRecord) (space : Namespace) :
    record.finish.names space = Symbol.sortNames (record.names.get space).reverse := by
  rw [names, SymbolRecord.finish, NamespaceMap.get_map]
  rfl

/-- A table that was put in order is in order. -/
theorem isOrdered_normalize (table : SymbolTable) : table.normalize.IsOrdered := by
  intro space
  rw [names_normalize, Symbol.sortNames_eq]
  exact Symbol.isIncreasing_sortBy _

/-- A table of what was recorded is in order. -/
theorem isOrdered_finish (record : SymbolRecord) : record.finish.IsOrdered := by
  intro space
  rw [names_finish, Symbol.sortNames_eq]
  exact Symbol.isIncreasing_sortBy _

end SymbolTable

end StageArchive
