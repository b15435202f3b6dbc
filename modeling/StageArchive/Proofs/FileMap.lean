import StageArchive.FileSystem
import StageArchive.Proofs.Outcome
import StageArchive.Proofs.Path
import StageArchive.Proofs.Text
/-!
# Files without faults

The simplest file system: a map from the places that paths lead to, to the contents of files. Writing
always succeeds, directories are always there, and reading fails only where there is no file.
-/

namespace StageArchive

/-- The contents of files by the keys of their paths. -/
structure FileMap where
  content? : String × List String → Option Bytes

namespace FileMap

/-- No files. -/
def empty : FileMap :=
  ⟨fun _ => none⟩

/-- The content of a file. -/
def read (files : FileMap) (path : Path) : Except FileFault Bytes :=
  match files.content? path.key with
  | some content => .ok content
  | none => .error .notFound

/-- The files after a content is written to a path. -/
def write (files : FileMap) (path : Path) (content : Bytes) : FileMap :=
  ⟨fun key => if key = path.key then some content else files.content? key⟩

instance : FileAccess (StateM FileMap) where
  read path := return (← get).read path
  isFile path := return ((← get).content? path.key).isSome
  write path content := fun files => (.ok (), files.write path content)
  isDirectory _ := return true
  makeDirectory _ := return .ok ()
  admitsFiles _ := return .ok ()
  place path content := fun files => (.ok (), files.write path content)

/-- A file is read from a path with its content. -/
theorem read_eq_ok {files : FileMap} {path : Path} {content : Bytes} :
    files.read path = .ok content ↔ files.content? path.key = some content := by
  unfold read
  cases files.content? path.key with
  | none => exact ⟨nofun, nofun⟩
  | some other =>
      constructor
      · intro h
        cases h
        rfl
      · intro h
        cases h
        rfl

/-- What is written to a path is there. -/
theorem content_write_self (files : FileMap) (path : Path) (content : Bytes) :
    (files.write path content).content? path.key = some content :=
  if_pos rfl

/-- Writing to a path changes no other file. -/
theorem content_write_of_ne {files : FileMap} {path : Path} {content : Bytes}
    {key : String × List String} (h : key ≠ path.key) :
    (files.write path content).content? key = files.content? key :=
  if_neg h

/-- Directories are there already. -/
theorem createDirectories_eq (path : Path) (files : FileMap) :
    (FileAccess.createDirectories path : StateM FileMap _) files = (.ok (), files) := by
  unfold FileAccess.createDirectories
  split
  · rfl
  · rfl

/-- A file that holds a text is read as the text. -/
theorem readText_eq {files : FileMap} {path : Path} {text : String}
    (h : files.content? path.key = some (Text.utf8 text)) :
    (FileAccess.readText path : StateM FileMap _) files = (.ok text, files) := by
  have hread : (FileAccess.read path : StateM FileMap _) files = (.ok (Text.utf8 text), files) :=
    Prod.ext (read_eq_ok.mpr h) rfl
  show (ExceptT.mk (FileAccess.readText path) : ExceptT FileFault (StateM FileMap) String) files = _
  rw [FileAccess.readText, run_mk_of_eq hread]
  simp only [Text.ofUtf8?_utf8]
  rfl

end FileMap

end StageArchive
