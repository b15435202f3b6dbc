/-!
# Names numbered in order of first mention

The media of a container and the media that one entity mentions are both numbered as their names
first appear. A name index keeps each name once, so a number stands for one name and a name for one
number.
-/

namespace StageArchive

/-- Distinct names; the number of a name is its position. -/
structure NameIndex where
  names : List String
  nodup : names.Nodup
  deriving DecidableEq

namespace NameIndex

/-- No names. -/
def empty : NameIndex :=
  ⟨[], .nil⟩

/-- The number of names. -/
def size (index : NameIndex) : Nat :=
  index.names.length

/-- The number of a name. -/
def number? (index : NameIndex) (name : String) : Option UInt32 :=
  (index.names.idxOf? name).map UInt32.ofNat

/-- The name with a number. -/
def name? (index : NameIndex) (number : UInt32) : Option String :=
  index.names[number.toNat]?

/-- Adds a name at the end, unless it is there. -/
def add (index : NameIndex) (name : String) : NameIndex :=
  if h : name ∈ index.names then index
  else ⟨index.names ++ [name], by
    rw [List.nodup_append]
    refine ⟨index.nodup, by simp, ?_⟩
    intro other hother last hlast heq
    simp only [List.mem_singleton] at hlast
    exact h (hlast ▸ heq ▸ hother)⟩

/-- Adds a name, and gives its number and whether it is new. -/
def insert (index : NameIndex) (name : String) : NameIndex × UInt32 × Bool :=
  (index.add name, UInt32.ofNat (index.names.idxOf name), !index.names.contains name)

/-- The index of a list of names. -/
def ofList (names : List String) : NameIndex :=
  names.foldl add empty

end NameIndex

end StageArchive
