import StageArchive.Proofs.Container.Sealed
import StageArchive.Proofs.Emit.Entity
import StageArchive.Proofs.Media
import StageArchive.Proofs.Outcome
/-!
# Emitted files can be prepared for a container

What is emitted is accepted by the assembler: a media list is read back, a set refers to no media, and
a group or scene is linked when the container has the media that it names and it does not become too
long.
-/

namespace StageArchive.Emitter

variable {emitter : Emitter}

/-- A set without references to media names none. -/
theorem mediaNames_eq_nil {node : Node}
    (h : node.data.properties.find? (·.value.medium?.isSome) = none) : node.mediaNames = [] := by
  refine List.filterMap_eq_nil_iff.mpr ?_
  intro property hproperty
  have hnone := List.find?_eq_none.mp h property hproperty
  simpa using hnone

/-- The stream of a set without references to media names none. -/
theorem names_of_setStream {className : String} {node : Node} {name : UInt32} {encoder : Encoder}
    (hmedia : node.data.properties.find? (·.value.medium?.isSome) = none)
    (hencoder : emitter.appendProperties className
      (appendFlags (emitter.startStream.symbol .name name) node) node = .ok encoder) :
    Encoder.Names emitter.startStream [] encoder := by
  have hname := names_symbol emitter.startStream (rfl : Opcode.name.operand? = _) name
  have hflags := names_appendFlags (emitter.startStream.symbol .name name) node
  have hproperties := names_of_appendProperties hencoder
  rw [mediaNames_eq_nil hmedia] at hproperties
  exact (hname.trans hflags).trans hproperties

/-- The file of a set that is given out is that of the stream, and not too long for its prefix. -/
theorem setFile_eq_ok {classIndex : UInt32} {encoder : Encoder} {bytes : Bytes}
    (h : emitter.setFile classIndex encoder = .ok bytes) :
    SetPayload.length encoder.finish.bytes < 2 ^ 32 ∧
      bytes = SetPayload.encodeFile emitter.config.byteOrder classIndex encoder.finish.bytes := by
  unfold setFile at h
  dsimp only at h
  split at h
  · rename_i hfits
    cases h
    exact ⟨hfits, rfl⟩
  · cases h

/-- The file of a set holds a stream that names no media. -/
theorem set_eq_ok {node : Node} {bytes : Bytes} (h : emitter.set node = .ok bytes) :
    ∃ classIndex encoder, Encoder.Names emitter.startStream [] encoder ∧
      SetPayload.length encoder.finish.bytes < 2 ^ 32 ∧
      bytes = SetPayload.encodeFile emitter.config.byteOrder classIndex encoder.finish.bytes := by
  obtain ⟨⟨info, classIndex⟩, -, h⟩ := bind_eq_ok.mp h
  dsimp only at h
  split at h
  · cases h
  · rename_i hmedia
    obtain ⟨name, -, h⟩ := bind_eq_ok.mp h
    obtain ⟨encoder, hencoder, h⟩ := bind_eq_ok.mp h
    exact ⟨classIndex, encoder, names_of_setStream hmedia hencoder, setFile_eq_ok h⟩

/-- Instructions without references to media have none that refers to one. -/
theorem find_copyMediaRef_eq_none {instructions : List Instruction}
    (h : assetOperands instructions = []) :
    instructions.find? (·.opcode = .copyMediaRef) = none := by
  refine List.find?_eq_none.mpr ?_
  intro instruction hinstruction hasset
  rw [assetOperands, List.map_eq_nil_iff] at h
  exact List.filter_eq_nil_iff.mp h instruction hinstruction hasset

/-- The file of a set whose stream an encoder wrote without naming media can be prepared. -/
theorem prepareSet_encodeFile {order : ByteOrder} {classIndex : UInt32} {after : Encoder}
    {written : List Instruction} (h : Encoder.Appends (.start order) written [] after)
    (hfits : SetPayload.length after.finish.bytes < 2 ^ 32) :
    Assembler.prepareSet order (SetPayload.encodeFile order classIndex after.finish.bytes) =
      .ok (order.encode classIndex ++ after.finish.bytes) := by
  obtain ⟨original, hstream, hoperands, -, -⟩ := h.exists_decodeStream
  have hinstructions : SetPayload.instructions ⟨classIndex, after.finish.bytes⟩ order =
      .ok original := by
    refine bind_eq_ok.mpr ⟨original, hstream, ?_⟩
    rw [find_copyMediaRef_eq_none hoperands]
    rfl
  exact bind_eq_ok.mpr ⟨_, SetPayload.ofFile_encodeFile classIndex hfits,
    bind_eq_ok.mpr ⟨_, SetPayload.decode_append order classIndex after.finish.bytes,
      bind_eq_ok.mpr ⟨original, hinstructions, rfl⟩⟩⟩

section Preparation

variable {σ : Type} [FileAccess (StateM σ)] {node : Node} {before after : σ} {bytes : Bytes}
  {assembler : Assembler}

/-- A group or scene that can be linked can be prepared. -/
theorem prepare_of_relinkEntity {kind : ChunkKind} {source : Path} {name : String}
    {order : ByteOrder} {content body : Bytes} (hkind : kind = .group ∨ kind = .scene)
    (horder : assembler.config.byteOrder = order)
    (h : relinkEntity order assembler.assets content = .ok body) :
    assembler.prepare ⟨kind, source, name⟩ content = .ok (.body kind.tag body) := by
  subst horder
  rcases hkind with rfl | rfl
  · simp only [Assembler.prepare, h]
  · simp only [Assembler.prepare, h]

/-- The file of an emitted medium is a list that can be read. -/
theorem exists_decode_of_media
    (h : (emitter.media node : ExceptT EmitFault (StateM σ) Bytes) before = (.ok bytes, after)) :
    ∃ media, MediaList.decode emitter.config.byteOrder bytes = .ok media := by
  obtain ⟨⟨info, mediaType⟩, _, -, h⟩ := run_bind_eq_ok.mp h
  obtain ⟨references, _, -, h⟩ := run_bind_eq_ok.mp h
  exact ⟨_, MediaList.decode_of_encode (mapError_eq_ok.mp (congrArg Prod.fst h))⟩

/-- An emitted entity can be prepared for a container with the same byte order that has the media
which the entity names, unless it would be too long once it is linked. -/
theorem exists_prepare_of_emit {kind : ChunkKind} {source : Path} {name : String}
    (hkind : node.kind = kind.node)
    (horder : assembler.config.byteOrder = emitter.config.byteOrder)
    (hnames : ∀ name ∈ node.entityMedia,
      '\x00' ∉ name.toList ∧ name ∈ assembler.assets.names)
    (hlinks : kind = .group ∨ kind = .scene →
      relinkEntity assembler.config.byteOrder assembler.assets bytes ≠ .error .payloadTooLong)
    (h : (emitter.emit node : ExceptT EmitFault (StateM σ) Bytes) before = (.ok bytes, after)) :
    ∃ prepared, assembler.prepare ⟨kind, source, name⟩ bytes = .ok prepared := by
  cases kind with
  | media =>
      have hkind : node.kind = .media := hkind
      simp only [emit, hkind] at h
      obtain ⟨media, hmedia⟩ := exists_decode_of_media h
      refine ⟨.whole bytes, ?_⟩
      simp only [Assembler.prepare, horder, hmedia]
  | set =>
      have hkind : node.kind = .set := hkind
      simp only [emit, hkind] at h
      have hset : emitter.set node = .ok bytes := congrArg Prod.fst h
      obtain ⟨classIndex, encoder, ⟨⟨written, happends⟩, -⟩, hfits, rfl⟩ := set_eq_ok hset
      have hprepare := @prepareSet_encodeFile _ classIndex _ _ happends hfits
      refine ⟨.body .set (emitter.config.byteOrder.encode classIndex ++ encoder.finish.bytes), ?_⟩
      simp only [Assembler.prepare, horder, hprepare]
  | group | scene =>
      have hentity : node.kind = .group ∨ node.kind = .scene := by
        first | exact .inl hkind | exact .inr hkind
      obtain ⟨header, encoder, ⟨⟨written, happends⟩, hnonempty⟩, hfits, rfl⟩ :=
        emit_eq_ok hentity h
      -- All names are in the container, so every reference can be linked.
      obtain ⟨payload, original, hpayload, -, -, hstream, hmedia, -⟩ :=
        hasMedia_of_appends happends hfits fun name hname =>
          ⟨hnonempty name hname, hnames name hname⟩
      rw [horder] at hlinks
      cases hlinked : relinkEntity emitter.config.byteOrder assembler.assets _ with
      | ok body => exact ⟨_, prepare_of_relinkEntity (by simp) horder hlinked⟩
      | error fault =>
          have hbuild := (relinkEntity_of_hasMedia hpayload hstream hmedia).symm.trans hlinked
          obtain ⟨-, rfl⟩ := EntityPayload.build_eq_error.mp hbuild
          exact absurd hlinked (hlinks (by simp))

/-- What is linked from the payload of an emitted group or scene refers to the media that the
entity's properties name, by the container's numbers. -/
theorem operands_of_isLinkedFrom {assets : NameIndex} {payload linked : EntityPayload}
    (hkind : node.kind = .group ∨ node.kind = .scene)
    (hnames : ∀ name ∈ node.entityMedia, '\x00' ∉ name.toList)
    (h : (emitter.emit node : ExceptT EmitFault (StateM σ) Bytes) before = (.ok bytes, after))
    (hpayload : EntityPayload.decode emitter.config.byteOrder bytes = .ok payload)
    (hlinked : IsLinkedFrom emitter.config.byteOrder assets payload linked) :
    ∃ instructions, linked.instructions emitter.config.byteOrder = .ok instructions ∧
      assetOperands instructions = node.entityMedia.map assets.number? := by
  obtain ⟨header, encoder, ⟨⟨written, happends⟩, hnonempty⟩, hfits, rfl⟩ := emit_eq_ok hkind h
  obtain ⟨found, original, hfound, -, horiginal, hstream, -⟩ :=
    EntityPayload.exists_decode_of_appends happends hfits
  rw [hpayload] at hfound
  cases hfound
  have htable := EntityPayload.names_of_appends happends hfits
    (fun name hname => ⟨hnonempty name hname, hnames name hname⟩) hpayload
  have hoperands := EntityPayload.operands_of_names happends hfits htable horiginal
  obtain ⟨-, -, again, instructions, hagain, hinstructions, -, hresolved⟩ := hlinked
  rw [hstream] at hagain
  cases hagain
  refine ⟨instructions, hinstructions, ?_⟩
  have hnumbers := congrArg (List.map (·.bind assets.number?)) hoperands
  simpa [hresolved, List.map_map, Function.comp_def, Option.bind_assoc] using hnumbers

end Preparation

end StageArchive.Emitter
