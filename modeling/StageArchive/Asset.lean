import StageArchive.NameIndex
import StageArchive.Text.Quoted
/-!
# References to media

When an entity is emitted it is not known which media its container will hold, so it names them.
Linking replaces each name by the number the container gives it.
-/

namespace StageArchive

/-- A reference to a media asset: its name, or its number in the container. -/
inductive AssetRef where
  | pending (name : String)
  | resolved (number : UInt32)
  deriving DecidableEq, Repr

namespace AssetRef

/-- The number that a reference stands for in a container. -/
def resolve (reference : AssetRef) (index : NameIndex) : Option UInt32 :=
  match reference with
  | .pending name => index.number? name
  | .resolved number => some number

/-- A reference as text: the name between quotes, or the number after a hash sign. -/
def label : AssetRef → String
  | .pending name => Text.quote name
  | .resolved number => s!"#{number}"

end AssetRef

end StageArchive
