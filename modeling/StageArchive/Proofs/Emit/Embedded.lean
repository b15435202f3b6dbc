import StageArchive.Emit.Entity
import StageArchive.Proofs.FileMap
/-!
# Emission reads embedded files only

What is emitted for an entity depends on files only by those that a medium embeds. Files that agree
on them give the same bytes or the same fault, whatever else they hold.
-/

namespace StageArchive

/-- A node is a medium that embeds the file at a path. -/
def Node.Embeds (node : Node) (config : Config) (path : Path) : Prop :=
  node.kind = .media ∧
    ∃ source ∈ node.data.media, source.embed = true ∧ path = config.resolveAsset source.path

namespace Emitter

variable {emitter : Emitter} {first second : FileMap}

/-- A file is read in the same way where it has the same content. -/
theorem agrees_read {path : Path} (h : first.content? path.key = second.content? path.key) :
    Agrees first second
      (liftM (FileAccess.read path : StateM FileMap _) : ExceptT EmitFault (StateM FileMap) _) := by
  have hread : second.read path = first.read path := by
    rw [FileMap.read, FileMap.read, h]
  exact .lift rfl (congrArg (fun found => (found, second)) hread)

/-- The reference to a file of a medium depends on this file, and only when it is embedded. -/
theorem agrees_mediaReference {node : Node} {source : MediaSource}
    (h : source.embed = true →
      first.content? (emitter.config.resolveAsset source.path).key =
        second.content? (emitter.config.resolveAsset source.path).key) :
    Agrees first second
      (emitter.mediaReference node source : ExceptT EmitFault (StateM FileMap) _) := by
  unfold mediaReference
  dsimp only
  split
  case' h_1 => split
  -- In every branch the kind, or the refusal of it, is followed by the same reading of the file.
  all_goals
    refine .bind (.mk _) fun kind => ?_
    split
    · rename_i hembed
      refine .bind (agrees_read (h hembed)) fun found => ?_
      cases found with
      | error | ok => exact .mk _
    · split
      · exact .mk _
      · exact .mk _

/-- What is emitted for an entity depends on the files that it embeds. -/
theorem agrees_emit {node : Node}
    (h : ∀ path, node.Embeds emitter.config path →
      first.content? path.key = second.content? path.key) :
    Agrees first second (emitter.emit node : ExceptT EmitFault (StateM FileMap) Bytes) := by
  unfold emit
  split
  · exact .mk _
  · exact .mk _
  · exact .mk _
  · rename_i hkind
    refine .bind (.mk _) fun found => .bind (.mapM fun source hsource => ?_) fun _ => .mk _
    exact agrees_mediaReference fun hembed => h _ ⟨hkind, source, hsource, hembed, rfl⟩
  · exact .mk _

end Emitter

end StageArchive
