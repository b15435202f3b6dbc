import StageArchive.Chunk.Tag
import StageArchive.Path
import StageArchive.Tree.Kind
/-!
# What a container holds

A container holds media lists, sets, groups and scenes, each from a file of its own. The media come
first, so that the number of a medium is also its place in the table of contents.
-/

namespace StageArchive

/-- The kind of something in a container. -/
inductive ChunkKind where
  | media
  | group
  | set
  | scene
  deriving DecidableEq, Repr

namespace ChunkKind

/-- Every kind. -/
def all : List ChunkKind :=
  [.media, .group, .set, .scene]

/-- The name of a kind in documents and messages. -/
def name : ChunkKind → String
  | .media => "media"
  | .group => "group"
  | .set => "set"
  | .scene => "scene"

/-- The kind with the given name. -/
def ofName? (name : String) : Option ChunkKind :=
  all.find? (·.name == name)

/-- The tag of the chunk. -/
def tag : ChunkKind → Tag
  | .media => .list
  | .group => .group
  | .set => .set
  | .scene => .scene

/-- The extension of the file. -/
def extension : ChunkKind → String
  | .media => "mrfl"
  | .group => "grp"
  | .set => "set"
  | .scene => "scn"

/-- The kind of the node that the file is emitted for. -/
def node : ChunkKind → NodeKind
  | .media => .media
  | .group => .group
  | .set => .set
  | .scene => .scene

end ChunkKind

/-- Something to put into a container. -/
structure ChunkEntry where
  kind : ChunkKind
  /-- The path of its file. -/
  source : Path
  /-- Its name; the media of entities are looked up by theirs. -/
  name : String
  deriving DecidableEq, Repr

/-- An entry that is in the container. -/
structure WrittenChunk where
  kind : ChunkKind
  name : String
  /-- The offset of its tag. -/
  offset : UInt32
  deriving DecidableEq, Repr

/-- An entry that was left out. -/
structure SkippedChunk where
  kind : ChunkKind
  name : String
  reason : String
  deriving DecidableEq, Repr

end StageArchive
