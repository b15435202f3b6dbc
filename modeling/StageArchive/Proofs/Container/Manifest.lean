import StageArchive.Container.Manifest
import StageArchive.Proofs.Json.Shape
/-!
# Manifests are read back

The text of a manifest describes that manifest, settings and entries included.
-/

namespace StageArchive

open Json (Shape IsPlain)

/-- A path or nothing is read from its document. -/
theorem Path.optional_toJson? (levels : Nat) (path : Option Path) :
    Shape.optional Path.shape levels (Path.toJson? path) = .ok path := by
  cases path with
  | none | some => rfl

/-- A path or nothing is plain. -/
theorem Path.isPlain_toJson? (path : Option Path) : IsPlain (Path.toJson? path) := by
  cases path with
  | none | some => trivial

namespace Config

/-- A time or nothing is read from its document. -/
theorem optional_word (levels : Nat) (timestamp : Option UInt32) :
    Shape.optional Shape.word levels
        ((timestamp.map fun seconds => Json.ofNat seconds.toNat).getD .null) =
      .ok timestamp := by
  cases timestamp with
  | none => rfl
  | some seconds =>
      show (Shape.word levels (Json.ofNat seconds.toNat)).map some = _
      rw [Shape.word_ofNat]
      rfl

/-- Settings are read from their document. -/
theorem shape_toJson (levels : Nat) (config : Config) :
    shape (levels + 1) config.toJson = .ok config := by
  obtain ⟨outputDirectory, byteOrder, scalar, verbose, onMissing, timestamp, assetRoot⟩ := config
  have hbyteOrder : Shape.withDefault .big (Shape.oneOf [.big, .little] ByteOrder.name) levels
      (some (.text byteOrder.name)) = .ok byteOrder := by
    cases byteOrder <;> rfl
  have hscalar : Shape.withDefault .float
      (Shape.oneOf [.float, .fixed16, .fixed20] ScalarEncoding.name) levels
      (some (.text scalar.name)) = .ok scalar := by
    cases scalar <;> rfl
  have honMissing : Shape.withDefault .abort
      (Shape.oneOf [.abort, .skip] MissingPolicy.name) levels
      (some (.text onMissing.name)) = .ok onMissing := by
    cases onMissing <;> rfl
  refine bind_eq_ok.mpr ⟨_, Shape.record_of_keys .strict fields (by decide) rfl levels, ?_⟩
  refine bind_eq_ok.mpr ⟨outputDirectory, Path.optional_toJson? levels outputDirectory, ?_⟩
  refine bind_eq_ok.mpr ⟨byteOrder, hbyteOrder, ?_⟩
  refine bind_eq_ok.mpr ⟨scalar, hscalar, ?_⟩
  refine bind_eq_ok.mpr ⟨verbose, rfl, ?_⟩
  refine bind_eq_ok.mpr ⟨onMissing, honMissing, ?_⟩
  refine bind_eq_ok.mpr ⟨timestamp, optional_word levels timestamp, ?_⟩
  exact bind_eq_ok.mpr ⟨assetRoot, Path.optional_toJson? levels assetRoot, rfl⟩

/-- The document of settings is plain. -/
theorem isPlain_toJson (config : Config) : IsPlain config.toJson := by
  have htimestamp : IsPlain
      ((config.timestamp.map fun seconds => Json.ofNat seconds.toNat).getD .null) := by
    cases config.timestamp with
    | none => trivial
    | some seconds => exact ⟨seconds.toNat, rfl⟩
  exact ⟨Path.isPlain_toJson? _, trivial, trivial, trivial, trivial, htimestamp,
    Path.isPlain_toJson? _, trivial⟩

end Config

/-- An entry is read from its document. -/
theorem ChunkEntry.shape_toJson (levels : Nat) (entry : ChunkEntry) :
    ChunkEntry.shape (levels + 1) entry.toJson = .ok entry := by
  obtain ⟨kind, source, name⟩ := entry
  have hkind : Shape.required (Shape.choice ChunkKind.ofName?) levels (some (.text kind.name)) =
      .ok kind := by
    cases kind <;> rfl
  refine bind_eq_ok.mpr
    ⟨_, Shape.record_of_keys .strict ["kind", "source", "name"] (by decide) rfl levels, ?_⟩
  exact bind_eq_ok.mpr ⟨kind, hkind, bind_eq_ok.mpr ⟨source, rfl, bind_eq_ok.mpr ⟨name, rfl, rfl⟩⟩⟩

namespace Manifest

/-- A manifest is read from its document. -/
theorem shape_toJson (levels : Nat) (manifest : Manifest) :
    shape (levels + 3) manifest.toJson = .ok manifest := by
  obtain ⟨config, output, chunks⟩ := manifest
  refine bind_eq_ok.mpr
    ⟨_, Shape.record_of_keys .strict ["config", "output", "chunks"] (by decide) rfl (levels + 2), ?_⟩
  refine bind_eq_ok.mpr ⟨config, config.shape_toJson (levels + 1), ?_⟩
  refine bind_eq_ok.mpr ⟨output, rfl, ?_⟩
  exact bind_eq_ok.mpr ⟨chunks, Shape.list_map (ChunkEntry.shape_toJson levels) chunks, rfl⟩

/-- The text of a manifest describes the manifest. -/
theorem parse_print (manifest : Manifest) : parse manifest.print = .ok manifest := by
  have hentry (entry : ChunkEntry) : IsPlain entry.toJson := ⟨trivial, trivial, trivial, trivial⟩
  have hplain : IsPlain manifest.toJson :=
    ⟨manifest.config.isPlain_toJson, trivial, Json.arePlain_map hentry manifest.chunks, trivial⟩
  exact Shape.parse_pretty hplain (manifest.shape_toJson 124)

end Manifest

end StageArchive
