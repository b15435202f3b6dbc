import StageArchive.Chunk.Source
/-!
# Walking through chunks

A walk visits every chunk inside a form, and inside the forms among them, in file order. It ends at
the first chunk that does not fit; what was visited before stays visited.
-/

namespace StageArchive

/-- A chunk met on a walk, and the number of forms around it. -/
structure Visit where
  depth : Nat
  chunk : Chunk
  deriving DecidableEq, Repr

namespace Chunk

/-- The chunks from the position of a source to the end of a form, with the fault that ended the
walk. -/
def walkFrom (form : Chunk) (depth : Nat) (source : Source) : List Visit × Option ChunkFault :=
  match h : Reading.next? form source with
  | (.error fault, _) => ([], some fault)
  | (.ok none, _) => ([], none)
  | (.ok (some chunk), after) =>
    have := Reading.finish_sub_lt_of_next? h
    have ⟨hoffset, hfinish⟩ := Reading.bounds_of_next? h
    have : chunk.finish - chunk.content < form.finish - source.position := by
      simp only [Chunk.finish, Chunk.content, Chunk.body, Chunk.headerLength] at *
      split <;> omega
    let inside :=
      if chunk.tag.isForm then
        walkFrom chunk (depth + 1) { after with position := chunk.content }
      else ([], none)
    match inside with
    | (visits, some fault) => (⟨depth, chunk⟩ :: visits, some fault)
    | (visits, none) =>
      let (others, fault) := walkFrom form depth { after with position := chunk.finish }
      (⟨depth, chunk⟩ :: (visits ++ others), fault)
termination_by form.finish - source.position

/-- Every chunk inside a form. -/
def walk (form : Chunk) (depth : Nat) (source : Source) : List Visit × Option ChunkFault :=
  walkFrom form depth { source with position := form.content }

end Chunk

end StageArchive
