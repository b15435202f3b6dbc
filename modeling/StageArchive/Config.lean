import StageArchive.ByteOrder
import StageArchive.Path
import StageArchive.Scalar
/-!
# Settings of a run

One value holds the settings of a compilation or an assembly. A manifest carries it along, and the
command line may override each setting.
-/

namespace StageArchive

/-- What happens to an entity that mentions something missing. -/
inductive MissingPolicy where
  /-- The run fails. -/
  | abort
  /-- The entity is left out. -/
  | skip
  deriving DecidableEq, Repr, Inhabited

namespace MissingPolicy

/-- The policy with the given name. -/
def ofName? : String → Option MissingPolicy
  | "abort" => some .abort
  | "skip" => some .skip
  | _ => none

/-- The name of a policy. -/
def name : MissingPolicy → String
  | .abort => "abort"
  | .skip => "skip"

end MissingPolicy

/-- The settings of a run. -/
structure Config where
  /-- Where relative output paths start. -/
  outputDirectory : Option Path
  byteOrder : ByteOrder
  scalar : ScalarEncoding
  verbose : Bool
  onMissing : MissingPolicy
  /-- The time in the header of a container, when it is not the time of the run. -/
  timestamp : Option UInt32
  /-- Where relative paths of embedded media start. -/
  assetRoot : Option Path
  deriving DecidableEq, Repr

/-- Settings that replace others where they are given. -/
structure ConfigOverrides where
  outputDirectory : Option Path
  byteOrder : Option ByteOrder
  scalar : Option ScalarEncoding
  verbose : Bool
  onMissing : Option MissingPolicy
  timestamp : Option UInt32
  assetRoot : Option Path
  deriving DecidableEq, Repr

/-- No setting replaced. -/
def ConfigOverrides.none : ConfigOverrides :=
  ⟨.none, .none, .none, false, .none, .none, .none⟩

namespace Config

/-- The settings that hold unless others are given. -/
def standard : Config :=
  ⟨none, .big, .float, false, .abort, none, none⟩

/-- Settings with some replaced. A run is verbose when either side says so. -/
def override (config : Config) (overrides : ConfigOverrides) : Config where
  outputDirectory := overrides.outputDirectory <|> config.outputDirectory
  byteOrder := overrides.byteOrder.getD config.byteOrder
  scalar := overrides.scalar.getD config.scalar
  verbose := config.verbose || overrides.verbose
  onMissing := overrides.onMissing.getD config.onMissing
  timestamp := overrides.timestamp <|> config.timestamp
  assetRoot := overrides.assetRoot <|> config.assetRoot

/-- Where an output path leads. -/
def resolveOutput (config : Config) (path : Path) : Path :=
  path.joinOn config.outputDirectory

/-- Where the path of an embedded medium leads. -/
def resolveAsset (config : Config) (path : Path) : Path :=
  path.joinOn config.assetRoot

/-- The time in the header of a container that is assembled at a time. -/
def headerTimestamp (config : Config) (clock : UInt32) : UInt32 :=
  config.timestamp.getD clock

end Config

end StageArchive
