import StageArchive.Emit.Entity
import StageArchive.Proofs.Emit.Value
import StageArchive.Proofs.Entity.Payload
/-!
# The media that an emitted entity names

Emission is followed through the encoder: `Encoder.Names` says that from one state of an encoder to
another some media are named, none by the empty name, and one lemma for each part of an entity says
which. A group names the media of its actors and their roles, a scene those of its own properties.
The payload can then always be read, and its names and references are those of the tree exactly when
none of the names holds a zero character. A value that is a text is refused when it holds one; the
name of a medium is not.
-/

namespace StageArchive

/-- The media that a node's own properties refer to, in order. -/
def Node.mediaNames (node : Node) : List String :=
  node.data.properties.filterMap (·.value.medium?)

/-- The media of an actor: its own, and then those of its roles. -/
def Node.actorMedia (actor : Node) : List String :=
  actor.mediaNames ++ (actor.childrenOfKind .role).flatMap mediaNames

/-- The media that the properties emitted for an entity refer to, in order. -/
def Node.entityMedia (node : Node) : List String :=
  match node.kind with
  | .group => (node.childrenOfKind .actor).flatMap actorMedia
  | .scene => node.mediaNames
  | _ => []

/-- From one state of an encoder to another instructions are appended that name media, none of them
by the empty name. -/
def Encoder.Names (encoder : Encoder) (names : List String) (after : Encoder) : Prop :=
  (∃ instructions, Appends encoder instructions names after) ∧ ∀ name ∈ names, name ≠ ""

namespace Encoder.Names

/-- An encoder that does nothing names nothing. -/
theorem refl (encoder : Encoder) : Names encoder [] encoder :=
  ⟨⟨[], Appends.refl encoder⟩, fun _ hname => absurd hname List.not_mem_nil⟩

/-- A single call names its medium, when it has one. -/
theorem of_call {encoder after : Encoder} (call : EncoderCall) {answer : Option UInt32}
    (h : encoder.call call = .ok (after, answer)) (hregular : call.IsRegular)
    (hnonempty : ∀ name ∈ call.medium?.toList, name ≠ "") :
    Names encoder call.medium?.toList after :=
  ⟨appends_of_call h hregular, hnonempty⟩

/-- What is named in two parts is named as a whole. -/
theorem trans {encoder middle after : Encoder} {first second : List String}
    (hfirst : Names encoder first middle) (hsecond : Names middle second after) :
    Names encoder (first ++ second) after := by
  obtain ⟨⟨written, hwritten⟩, hnonempty⟩ := hfirst
  obtain ⟨⟨others, hothers⟩, hnonempties⟩ := hsecond
  refine ⟨⟨written ++ others, hwritten.trans hothers⟩, ?_⟩
  intro name hname
  rcases List.mem_append.mp hname with hname | hname
  · exact hnonempty name hname
  · exact hnonempties name hname

/-- What a step names for each item of a list, all steps name together. -/
theorem of_foldlM {α : Type} {step : Encoder → α → Except EmitFault Encoder}
    (named : α → List String) {items : List α} {encoder after : Encoder}
    (h : items.foldlM step encoder = .ok after)
    (hstep : ∀ (encoder : Encoder) (item : α) (after : Encoder),
      step encoder item = .ok after → Names encoder (named item) after) :
    Names encoder (items.flatMap named) after := by
  -- Each item starts from the encoder that the items before it left.
  induction items generalizing encoder with
  | nil =>
      cases h
      exact refl _
  | cons item items ih =>
      rw [List.foldlM_cons] at h
      obtain ⟨middle, hmiddle, h⟩ := bind_eq_ok.mp h
      exact (hstep encoder item middle hmiddle).trans (ih h)

end Encoder.Names

namespace Emitter

variable {emitter : Emitter}

/-- The flags of a node name nothing. -/
theorem names_appendFlags (encoder : Encoder) (node : Node) :
    Encoder.Names encoder [] (appendFlags encoder node) := by
  unfold appendFlags
  split
  · exact .refl encoder
  · exact .of_call (.flags node.data.flags) rfl trivial fun _ hname => absurd hname List.not_mem_nil

/-- An opcode with a symbol names nothing. -/
theorem names_symbol (encoder : Encoder) {opcode : Opcode} {space : Namespace}
    (hkind : opcode.operand? = some (.symbol space)) (index : UInt32) :
    Encoder.Names encoder [] (encoder.symbol opcode index) :=
  .of_call (.symbol opcode index) (by simp only [Encoder.call, hkind]; rfl) ⟨space, hkind⟩
    fun _ hname => absurd hname List.not_mem_nil

/-- An opcode without operand names nothing. -/
theorem names_plain (encoder : Encoder) {opcode : Opcode} (hnone : opcode.operand? = none)
    (hfinish : opcode ≠ .finish) : Encoder.Names encoder [] (encoder.emit opcode []) :=
  .of_call (.plain opcode) (by simp only [Encoder.call, hnone]; rfl) ⟨hnone, hfinish⟩
    fun _ hname => absurd hname List.not_mem_nil

/-- A property names the medium that it refers to. -/
theorem names_of_appendProperty {className : String} {encoder after : Encoder}
    {property : Property} (h : emitter.appendProperty className encoder property = .ok after) :
    Encoder.Names encoder property.value.medium?.toList after := by
  obtain ⟨index, -, h⟩ := bind_eq_ok.mp h
  obtain ⟨encoded, hencoded, h⟩ := bind_eq_ok.mp h
  rcases Value.medium?_of_encode (mapError_eq_ok.mp hencoded) with
    ⟨name, rfl, hmedium⟩ | ⟨bytes, rfl, hmedium⟩
  · rw [hmedium]
    dsimp only at h
    split at h
    · cases h
    · rename_i hempty
      cases h
      refine .of_call (.mediaRef index (.pending name)) rfl ⟨name, rfl⟩ ?_
      rintro other hother rfl
      obtain rfl := List.mem_singleton.mp hother
      exact hempty rfl
  · rw [hmedium]
    have hproperty := mapError_eq_ok.mp h
    exact .of_call (.property index bytes) (by rw [Encoder.call, hproperty]; rfl)
      (Encoder.length_lt_of_property hproperty) fun _ hname => absurd hname List.not_mem_nil

/-- The properties of a node name the media that they refer to. -/
theorem names_of_appendProperties {className : String} {encoder after : Encoder} {node : Node}
    (h : emitter.appendProperties className encoder node = .ok after) :
    Encoder.Names encoder node.mediaNames after := by
  have hnames := Encoder.Names.of_foldlM (·.value.medium?.toList) h fun _ _ _ hproperty =>
    names_of_appendProperty hproperty
  have hmedia (properties : List Property) :
      properties.flatMap (·.value.medium?.toList) = properties.filterMap (·.value.medium?) := by
    induction properties with
    | nil => rfl
    | cons property properties ih =>
        rw [List.flatMap_cons, List.filterMap_cons, ih]
        cases property.value.medium? <;> rfl
  rwa [hmedia] at hnames

/-- The opening of a node names nothing. -/
theorem names_of_appendOpening {opcode : Opcode} {space : Namespace}
    (hkind : opcode.operand? = some (.symbol space)) {encoder after : Encoder} {node : Node}
    {info : ClassInfo} (h : emitter.appendOpening opcode encoder node = .ok (after, info)) :
    Encoder.Names encoder [] after := by
  obtain ⟨⟨found, index⟩, -, h⟩ := bind_eq_ok.mp h
  obtain ⟨name, -, h⟩ := bind_eq_ok.mp h
  cases h
  exact (names_symbol encoder hkind index).trans (names_symbol _ rfl name)

/-- A role names its own media. -/
theorem names_of_appendRole {encoder after : Encoder} {role : Node}
    (h : emitter.appendRole encoder role = .ok after) :
    Encoder.Names encoder role.mediaNames after := by
  obtain ⟨⟨opened, info⟩, hopened, h⟩ := bind_eq_ok.mp h
  obtain ⟨filled, hfilled, h⟩ := bind_eq_ok.mp h
  cases h
  have hopening := names_of_appendOpening rfl hopened
  have hflags := names_appendFlags opened role
  have hproperties := names_of_appendProperties hfilled
  have hclosing : Encoder.Names filled [] (filled.emit .endRole []) :=
    names_plain filled rfl (by decide)
  simpa using ((hopening.trans hflags).trans hproperties).trans hclosing

/-- The set that an actor is bound to is no medium. -/
theorem names_of_appendBinding {encoder after : Encoder} {actor : Node}
    (h : emitter.appendBinding encoder actor = .ok after) : Encoder.Names encoder [] after := by
  unfold appendBinding at h
  split at h
  · cases h
    exact .refl encoder
  · obtain ⟨index, -, h⟩ := bind_eq_ok.mp h
    cases h
    exact names_symbol encoder rfl index

/-- An actor names its own media and then those of its roles. -/
theorem names_of_appendActor {encoder after : Encoder} {actor : Node}
    (h : emitter.appendActor encoder actor = .ok after) :
    Encoder.Names encoder actor.actorMedia after := by
  obtain ⟨⟨opened, info⟩, hopened, h⟩ := bind_eq_ok.mp h
  obtain ⟨bound, hbound, h⟩ := bind_eq_ok.mp h
  obtain ⟨filled, hfilled, h⟩ := bind_eq_ok.mp h
  obtain ⟨played, hplayed, h⟩ := bind_eq_ok.mp h
  cases h
  have hopening := names_of_appendOpening rfl hopened
  have hflags := names_appendFlags opened actor
  have hbinding := names_of_appendBinding hbound
  have hproperties := names_of_appendProperties hfilled
  have hroles := Encoder.Names.of_foldlM Node.mediaNames hplayed fun _ _ _ hrole =>
    names_of_appendRole hrole
  have hclosing : Encoder.Names played [] (played.emit .endActor []) :=
    names_plain played rfl (by decide)
  have hall := ((((hopening.trans hflags).trans hbinding).trans hproperties).trans hroles).trans
    hclosing
  simpa [Node.actorMedia] using hall

/-- A group of a scene names nothing there. -/
theorem names_of_appendGroup {encoder after : Encoder} {group : Node}
    (h : emitter.appendGroup encoder group = .ok after) : Encoder.Names encoder [] after := by
  obtain ⟨⟨opened, info⟩, hopened, h⟩ := bind_eq_ok.mp h
  cases h
  exact (names_of_appendOpening rfl hopened).trans (names_plain opened rfl (by decide))

/-- The file of a group is the payload of a stream that names the media of its actors. -/
theorem group_eq_ok {node : Node} {bytes : Bytes} (h : emitter.group node = .ok bytes) :
    ∃ header encoder,
      Encoder.Names emitter.startStream ((node.childrenOfKind .actor).flatMap Node.actorMedia)
        encoder ∧
      EntityPayload.tableOffset header encoder.finish.bytes < 2 ^ 32 ∧
      bytes = EntityPayload.encode emitter.config.byteOrder header encoder.finish.bytes
        encoder.finish.names := by
  obtain ⟨⟨info, classIndex⟩, -, h⟩ := bind_eq_ok.mp h
  obtain ⟨encoder, hencoder, h⟩ := bind_eq_ok.mp h
  obtain ⟨hfits, rfl⟩ := EntityPayload.build_eq_ok.mp h
  have hactors := Encoder.Names.of_foldlM Node.actorMedia hencoder fun _ _ _ hactor =>
    names_of_appendActor hactor
  exact ⟨_, encoder, hactors, hfits, rfl⟩

/-- The stream of a scene names the scene's own media. -/
theorem names_of_sceneStream {className : String} {node : Node} {groups : List Node}
    {filled encoder : Encoder}
    (hfilled : emitter.appendProperties className (appendFlags emitter.startStream node) node =
      .ok filled)
    (hencoder : groups.foldlM emitter.appendGroup filled = .ok encoder) :
    Encoder.Names emitter.startStream node.mediaNames encoder := by
  have hflags := names_appendFlags emitter.startStream node
  have hproperties := names_of_appendProperties hfilled
  have hgroups := Encoder.Names.of_foldlM (fun _ => []) hencoder fun _ _ _ hgroup =>
    names_of_appendGroup hgroup
  rw [List.flatMap_eq_nil_iff.mpr fun _ _ => rfl] at hgroups
  simpa using (hflags.trans hproperties).trans hgroups

/-- The file of a scene is the payload of a stream that names the media of the scene. -/
theorem scene_eq_ok {node : Node} {bytes : Bytes} (h : emitter.scene node = .ok bytes) :
    ∃ header encoder, Encoder.Names emitter.startStream node.mediaNames encoder ∧
      EntityPayload.tableOffset header encoder.finish.bytes < 2 ^ 32 ∧
      bytes = EntityPayload.encode emitter.config.byteOrder header encoder.finish.bytes
        encoder.finish.names := by
  obtain ⟨⟨info, classIndex⟩, -, h⟩ := bind_eq_ok.mp h
  obtain ⟨filled, hfilled, h⟩ := bind_eq_ok.mp h
  obtain ⟨encoder, hencoder, h⟩ := bind_eq_ok.mp h
  obtain ⟨hfits, rfl⟩ := EntityPayload.build_eq_ok.mp h
  exact ⟨_, encoder, names_of_sceneStream hfilled hencoder, hfits, rfl⟩

/-- The file of a group or scene is the payload of a stream that names the entity's media. -/
theorem emit_eq_ok {σ : Type} [FileAccess (StateM σ)] {node : Node}
    (hkind : node.kind = .group ∨ node.kind = .scene) {before after : σ} {bytes : Bytes}
    (h : (emitter.emit node : ExceptT EmitFault (StateM σ) Bytes) before = (.ok bytes, after)) :
    ∃ header encoder, Encoder.Names emitter.startStream node.entityMedia encoder ∧
      EntityPayload.tableOffset header encoder.finish.bytes < 2 ^ 32 ∧
      bytes = EntityPayload.encode emitter.config.byteOrder header encoder.finish.bytes
        encoder.finish.names := by
  rcases hkind with hkind | hkind
  · simp only [emit, hkind] at h
    simp only [Node.entityMedia, hkind]
    exact group_eq_ok (congrArg Prod.fst h)
  · simp only [emit, hkind] at h
    simp only [Node.entityMedia, hkind]
    exact scene_eq_ok (congrArg Prod.fst h)

/-- The payload of an emitted group or scene can be read. Its names are the distinct media that the
entity's properties refer to, in order of first reference, and each reference in its stream stands
for the name in the property, exactly when no such name holds a zero character. -/
theorem emit_keeps_names_iff {σ : Type} [FileAccess (StateM σ)] {node : Node}
    (hkind : node.kind = .group ∨ node.kind = .scene) {before after : σ} {bytes : Bytes}
    (h : (emitter.emit node : ExceptT EmitFault (StateM σ) Bytes) before = (.ok bytes, after)) :
    ∃ payload instructions,
      EntityPayload.decode emitter.config.byteOrder bytes = .ok payload ∧
      payload.instructions emitter.config.byteOrder = .ok instructions ∧
      ((payload.names = node.entityMedia.eraseDups ∧
          (assetOperands instructions).map (·.bind payload.mediumName?) =
            node.entityMedia.map some) ↔
        ∀ name ∈ node.entityMedia, '\x00' ∉ name.toList) := by
  obtain ⟨header, encoder, ⟨⟨written, happends⟩, hnonempty⟩, hfits, rfl⟩ := emit_eq_ok hkind h
  obtain ⟨payload, original, hpayload, -, horiginal, hstream, -, hzero⟩ :=
    EntityPayload.exists_decode_of_appends happends hfits
  refine ⟨payload, original, hpayload, hstream, ?_⟩
  constructor
  · rintro ⟨hnames, -⟩ name hname
    apply hzero name
    rw [hnames]
    exact List.mem_eraseDups.mpr hname
  · intro hplain
    have hnames := EntityPayload.names_of_appends happends hfits
      (fun name hname => ⟨hnonempty name hname, hplain name hname⟩) hpayload
    exact ⟨hnames, EntityPayload.operands_of_names happends hfits hnames horiginal⟩

/-- A scene with a property for each of some media. -/
def sceneOf (names : List String) : Node :=
  .mk ⟨.scene, "s", [("class", "S")], 0, names.map fun name => ⟨"m", .mediaRef name⟩, []⟩ []

/-- What a tree with one scene is emitted with. -/
def ofScene (scene : Node) : Emitter :=
  let root : Node := .mk ⟨.root, "r", [], 0, [], []⟩ [scene]
  ⟨root, .attributes, .scan .attributes root, .standard⟩

/-- A scene that refers to a medium twice, with another in between. -/
theorem emit_keeps_repeated_name :
    ∃ bytes payload instructions,
      ((ofScene (sceneOf ["b", "a", "b"])).emit (sceneOf ["b", "a", "b"]) :
          ExceptT EmitFault (StateM FileSystem) Bytes) (.ofWorking "w") =
        (.ok bytes, .ofWorking "w") ∧
      EntityPayload.decode .big bytes = .ok payload ∧
      payload.instructions .big = .ok instructions ∧ payload.names = ["b", "a"] ∧
      (assetOperands instructions).map (·.bind payload.mediumName?) =
        [some "b", some "a", some "b"] := by
  have hemit : ((ofScene (sceneOf ["b", "a", "b"])).emit (sceneOf ["b", "a", "b"]) :
      ExceptT EmitFault (StateM FileSystem) Bytes) (.ofWorking "w") =
        (.ok [0, 0, 0, 14, 0, 0, 0, 0, 0x8a, 0x8d, 0x8d, 1, 0x8d, 0x80, 98, 0, 97, 0],
          .ofWorking "w") := rfl
  obtain ⟨payload, instructions, hpayload, hinstructions, hiff⟩ :=
    emit_keeps_names_iff (.inr rfl) hemit
  obtain ⟨hnames, hoperands⟩ := hiff.mpr (by decide)
  exact ⟨_, payload, instructions, hemit, hpayload, hinstructions, hnames, hoperands⟩

/-- A scene is emitted although the name of a medium holds a zero character, and its name table has
three names instead of two. -/
theorem emit_splits_name :
    ∃ bytes payload,
      ((ofScene (sceneOf ["a\x00b", "c"])).emit (sceneOf ["a\x00b", "c"]) :
          ExceptT EmitFault (StateM FileSystem) Bytes) (.ofWorking "w") =
        (.ok bytes, .ofWorking "w") ∧
      EntityPayload.decode .big bytes = .ok payload ∧
      (sceneOf ["a\x00b", "c"]).entityMedia.eraseDups = ["a\x00b", "c"] ∧
      payload.names = ["a", "b", "c"] := by
  have htable : NameTable.decode 13 (NameTable.encode ["a", "b", "c"]) = .ok ["a", "b", "c"] :=
    NameTable.decode_encode 13 (by decide) (by decide)
  have hpayload : EntityPayload.decode .big
      (EntityPayload.encode .big ⟨0, 0⟩ [0x8a, 0x8d, 0x8d, 1, 0x80] ["a\x00b", "c"]) =
        .ok ⟨⟨0, 0⟩, 13, 8, [0x8a, 0x8d, 0x8d, 1, 0x80], ["a", "b", "c"]⟩ :=
    EntityPayload.decode_encode (by decide) (IndexCode.endIndex_cons rfl) htable
  exact ⟨_, _, rfl, hpayload, by decide, rfl⟩

end Emitter

end StageArchive
