import StageArchive.Proofs.Chunk.Orders
import StageArchive.Proofs.Emit.Entity
import StageArchive.Proofs.Instruction.Orders
/-!
# Byte order never changes what is compiled

Emission in two byte orders goes through the same lookups and gives two encoders the same calls, apart
from the bytes of property values, of which there are as many in either order. So it fails in both with
one fault, or what it gives is read, each in its own order, as the same entity. `SameFile` says what that
means for every kind of node; each part of an entity has a lemma of its own before the whole.
-/

namespace StageArchive

/-- Two encoded values are as many bytes, or the name of one medium. -/
inductive EncodedValue.Alike : EncodedValue → EncodedValue → Prop
  | bytes {value other : Bytes} (h : other.length = value.length) : Alike (.bytes value) (.bytes other)
  | asset (name : String) : Alike (.asset name) (.asset name)

/-- The length of a list fits in a word in both orders or in neither. -/
theorem Value.encodeCount_matched {α : Type} (order other : ByteOrder) (items : List α) :
    Matched (fun value found => found.length = value.length) (Value.encodeCount order items)
      (Value.encodeCount other items) := by
  unfold encodeCount
  split
  · exact .ok (by simp)
  · exact .error _

/-- A list whose items are as many bytes in either order has an encoding in both or in neither. -/
theorem Value.encodeList_matched {α : Type} (order other : ByteOrder) {encodeItem otherItem : α → Bytes}
    (hitem : ∀ item, (otherItem item).length = (encodeItem item).length) (items : List α) :
    Matched EncodedValue.Alike (Value.encodeList order encodeItem items)
      (Value.encodeList other otherItem items) :=
  (encodeCount_matched order other items).bind fun value found hcount =>
    .ok (.bytes (by simp only [List.length_append, List.length_flatMap, hcount, hitem]))

/-- A value has an encoding in both orders, of one length, or in neither. -/
theorem Value.encode_matched (order other : ByteOrder) (encoding : ScalarEncoding) (value : Value) :
    Matched EncodedValue.Alike (value.encode order encoding) (value.encode other encoding) := by
  cases value with
  | enumeration variants chosen =>
      simp only [encode]
      split
      · exact .error _
      · exact .ok (.bytes (by simp))
  | string text =>
      simp only [encode]
      cases encodeText text with
      | error fault => exact .error fault
      | ok bytes => exact .ok (.bytes rfl)
  | stringArray texts =>
      refine (encodeCount_matched order other texts).bind fun value found hcount => ?_
      cases encodeTexts texts with
      | error fault => exact .error fault
      | ok bytes => exact .ok (.bytes (by simp [hcount]))
  | mediaRef name => exact .ok (.asset name)
  | intArray | scalarArray => exact encodeList_matched order other (by simp [encodeInt]) _
  | vector2Array | vector3Array | vector4Array =>
      exact encodeList_matched order other (by simp [encodeScalars, List.length_flatMap]) _
  | int | scalar | vector2 | vector3 | vector4 | rotation | transform =>
      refine .ok (.bytes ?_)
      simp [encodeInt, encodeScalars, List.length_flatMap]

/-- Two payloads of groups or scenes are taken apart, each in its own order, into the same parts, and
their streams into instructions that are alike. -/
def EntityPayload.SamePayload (order other : ByteOrder) (bytes counterpart : Bytes) : Prop :=
  ∃ payload twin instructions others,
    EntityPayload.decode order bytes = .ok payload ∧
    EntityPayload.decode other counterpart = .ok twin ∧
    twin.header = payload.header ∧ twin.names = payload.names ∧
    twin.nameTableOffset = payload.nameTableOffset ∧ twin.streamOffset = payload.streamOffset ∧
    payload.instructions order = .ok instructions ∧ twin.instructions other = .ok others ∧
    List.Forall₂ Instruction.Alike instructions others

/-- Two files of sets are taken apart, each in its own order, into the same class and instructions that
are alike. -/
def SetPayload.SameFile (order other : ByteOrder) (bytes counterpart : Bytes) : Prop :=
  ∃ inside within payload twin instructions others,
    SetPayload.ofFile order bytes = .ok inside ∧ SetPayload.ofFile other counterpart = .ok within ∧
    SetPayload.decode order inside = .ok payload ∧ SetPayload.decode other within = .ok twin ∧
    twin.classIndex = payload.classIndex ∧
    decodeStream order payload.stream = .ok instructions ∧
    decodeStream other twin.stream = .ok others ∧
    List.Forall₂ Instruction.Alike instructions others

namespace Emitter

/-- The emitter with another byte order. -/
def inOrder (emitter : Emitter) (order : ByteOrder) : Emitter :=
  { emitter with config := { emitter.config with byteOrder := order } }

/-- What is emitted for a node of some kind in two byte orders is the same to a reader. -/
def SameFile (order other : ByteOrder) : NodeKind → Bytes → Bytes → Prop
  | .group | .scene => EntityPayload.SamePayload order other
  | .set => SetPayload.SameFile order other
  | .media => MediaList.SameList order other
  | _ => fun _ _ => False

variable {emitter : Emitter} {order other : ByteOrder} {first second : Encoder}

/-- The flags of a node are appended in both orders. -/
theorem mirrors_appendFlags (h : Encoder.Mirrors order other first second) (node : Node) :
    Encoder.Mirrors order other (appendFlags first node) (appendFlags second node) := by
  unfold appendFlags
  split
  · exact h
  · exact h.flags _

/-- A property is appended in both orders or refused in both. -/
theorem appendProperty_matched (h : Encoder.Mirrors order other first second) (className : String)
    (property : Property) :
    Matched (Encoder.Mirrors order other)
      ((emitter.inOrder order).appendProperty className first property)
      ((emitter.inOrder other).appendProperty className second property) := by
  refine (Matched.refl _).bind fun index same hsame => ?_
  obtain rfl := hsame
  have hvalue := Value.encode_matched order other emitter.config.scalar property.value
  refine (hvalue.mapError _).bind fun value counterpart halike => ?_
  cases halike with
  | bytes hlength => exact (h.property index hlength).mapError _
  | asset name =>
      dsimp only
      split
      · exact .error _
      · exact .ok (h.mediaRef index (.pending name))

/-- The properties of a node are appended in both orders or refused in both. -/
theorem appendProperties_matched (h : Encoder.Mirrors order other first second) (className : String)
    (node : Node) :
    Matched (Encoder.Mirrors order other)
      ((emitter.inOrder order).appendProperties className first node)
      ((emitter.inOrder other).appendProperties className second node) :=
  Matched.foldlM (fun _ _ h property _ => appendProperty_matched h className property) h

/-- The opening of a node is appended in both orders, for one class, or refused in both. -/
theorem appendOpening_matched (h : Encoder.Mirrors order other first second) {opcode : Opcode}
    {space : Namespace} (hkind : opcode.operand? = some (.symbol space)) (node : Node) :
    Matched (fun opened same => Encoder.Mirrors order other opened.1 same.1 ∧ same.2 = opened.2)
      ((emitter.inOrder order).appendOpening opcode first node)
      ((emitter.inOrder other).appendOpening opcode second node) := by
  refine (Matched.refl _).bind fun found same hsame => ?_
  obtain rfl := hsame
  refine (Matched.refl _).bind fun name same hsame => ?_
  obtain rfl := hsame
  exact .ok ⟨(h.symbol hkind _).symbol rfl _, rfl⟩

/-- A role is appended in both orders or refused in both. -/
theorem appendRole_matched (h : Encoder.Mirrors order other first second) (role : Node) :
    Matched (Encoder.Mirrors order other) ((emitter.inOrder order).appendRole first role)
      ((emitter.inOrder other).appendRole second role) := by
  refine (appendOpening_matched h rfl role).bind ?_
  rintro ⟨opened, info⟩ ⟨counterpart, same⟩ ⟨hopened, hclass⟩
  obtain rfl : same = info := hclass
  refine (appendProperties_matched (mirrors_appendFlags hopened role) _ role).bind
    fun filled counterpart hfilled => ?_
  exact .ok (hfilled.plain rfl (by decide))

/-- The set that an actor is bound to is appended in both orders or refused in both. -/
theorem appendBinding_matched (h : Encoder.Mirrors order other first second) (actor : Node) :
    Matched (Encoder.Mirrors order other) ((emitter.inOrder order).appendBinding first actor)
      ((emitter.inOrder other).appendBinding second actor) := by
  unfold appendBinding
  split
  · exact .ok h
  · refine (Matched.refl _).bind fun index same hsame => ?_
    obtain rfl := hsame
    exact .ok (h.symbol rfl index)

/-- An actor is appended in both orders or refused in both. -/
theorem appendActor_matched (h : Encoder.Mirrors order other first second) (actor : Node) :
    Matched (Encoder.Mirrors order other) ((emitter.inOrder order).appendActor first actor)
      ((emitter.inOrder other).appendActor second actor) := by
  refine (appendOpening_matched h rfl actor).bind ?_
  rintro ⟨opened, info⟩ ⟨counterpart, same⟩ ⟨hopened, hclass⟩
  obtain rfl : same = info := hclass
  refine (appendBinding_matched (mirrors_appendFlags hopened actor) actor).bind
    fun bound counterpart hbound => ?_
  refine (appendProperties_matched hbound _ actor).bind fun filled counterpart hfilled => ?_
  refine (Matched.foldlM (fun _ _ h role _ => appendRole_matched h role) hfilled).bind
    fun played counterpart hplayed => ?_
  exact .ok (hplayed.plain rfl (by decide))

/-- A group of a scene is appended in both orders or refused in both. -/
theorem appendGroup_matched (h : Encoder.Mirrors order other first second) (group : Node) :
    Matched (Encoder.Mirrors order other) ((emitter.inOrder order).appendGroup first group)
      ((emitter.inOrder other).appendGroup second group) := by
  refine (appendOpening_matched h rfl group).bind fun opened same hopened => ?_
  exact .ok (hopened.1.plain rfl (by decide))

/-- A payload fits in both orders, with the same parts, or in neither. -/
theorem payload_matched (h : Encoder.Mirrors order other first second) (classIndex : UInt32)
    (members : List Node) :
    Matched (EntityPayload.SamePayload order other)
      ((emitter.inOrder order).payload classIndex members first)
      ((emitter.inOrder other).payload classIndex members second) := by
  obtain ⟨hlength, hnames, instructions, others, hstream, hother, halike⟩ := h.exists_decodeStream
  let header : EntityHeader := ⟨classIndex, UInt32.ofNat members.length⟩
  have hoffset : EntityPayload.tableOffset header second.finish.bytes =
      EntityPayload.tableOffset header first.finish.bytes := by
    rw [EntityPayload.tableOffset, EntityPayload.tableOffset, hlength]
  unfold payload EntityPayload.build
  rw [hoffset, hnames]
  split
  · rename_i hfits
    obtain ⟨decoded, hdecoded, -⟩ := NameTable.exists_decode_encode
      (EntityPayload.tableOffset header first.finish.bytes) first.finish.names
    refine .ok ⟨_, _, instructions, others,
      EntityPayload.decode_encode hfits (endIndex_of_decodeStream hstream) hdecoded,
      EntityPayload.decode_encode (hoffset ▸ hfits) (endIndex_of_decodeStream hother)
        (hoffset ▸ hdecoded), rfl, rfl, ?_, rfl, hstream, hother, halike⟩
    exact congrArg UInt32.ofNat hoffset
  · exact .error _

/-- The file of a set fits in both orders, with the same parts, or in neither. -/
theorem setFile_matched (h : Encoder.Mirrors order other first second) (classIndex : UInt32) :
    Matched (SetPayload.SameFile order other) ((emitter.inOrder order).setFile classIndex first)
      ((emitter.inOrder other).setFile classIndex second) := by
  obtain ⟨hlength, -, instructions, others, hstream, hother, halike⟩ := h.exists_decodeStream
  have hsize : SetPayload.length second.finish.bytes = SetPayload.length first.finish.bytes :=
    congrArg (4 + ·) hlength
  unfold setFile
  dsimp only
  rw [hsize]
  split
  · rename_i hfits
    exact .ok ⟨_, _, _, _, instructions, others, SetPayload.ofFile_encodeFile classIndex hfits,
      SetPayload.ofFile_encodeFile classIndex (hsize ▸ hfits), SetPayload.decode_append ..,
      SetPayload.decode_append .., rfl, hstream, hother, halike⟩
  · exact .error _

/-- A group is emitted in both orders or refused in both. -/
theorem group_matched (emitter : Emitter) (order other : ByteOrder) (node : Node) :
    Matched (EntityPayload.SamePayload order other) ((emitter.inOrder order).group node)
      ((emitter.inOrder other).group node) := by
  refine (Matched.refl _).bind fun found same hsame => ?_
  obtain rfl := hsame
  refine (Matched.foldlM (fun _ _ h actor _ => appendActor_matched h actor)
    (Encoder.Mirrors.start order other)).bind fun _ _ hactors => ?_
  exact payload_matched hactors _ _

/-- A scene is emitted in both orders or refused in both. -/
theorem scene_matched (emitter : Emitter) (order other : ByteOrder) (node : Node) :
    Matched (EntityPayload.SamePayload order other) ((emitter.inOrder order).scene node)
      ((emitter.inOrder other).scene node) := by
  refine (Matched.refl _).bind fun found same hsame => ?_
  obtain rfl := hsame
  have hflags := mirrors_appendFlags (Encoder.Mirrors.start order other) node
  refine (appendProperties_matched hflags _ node).bind fun _ _ hfilled => ?_
  refine (Matched.foldlM (fun _ _ h group _ => appendGroup_matched h group) hfilled).bind
    fun _ _ hgroups => ?_
  exact payload_matched hgroups _ _

/-- A set is emitted in both orders or refused in both. -/
theorem set_matched (emitter : Emitter) (order other : ByteOrder) (node : Node) :
    Matched (SetPayload.SameFile order other) ((emitter.inOrder order).set node)
      ((emitter.inOrder other).set node) := by
  refine (Matched.refl _).bind fun found same hsame => ?_
  obtain rfl := hsame
  dsimp only
  split
  · exact .error _
  · refine (Matched.refl _).bind fun name same hsame => ?_
    obtain rfl := hsame
    have hname := (Encoder.Mirrors.start order other).symbol (rfl : Opcode.name.operand? = _) name
    refine (appendProperties_matched (mirrors_appendFlags hname node) _ node).bind
      fun _ _ hfilled => ?_
    exact setFile_matched hfilled _

section Files

variable {σ : Type} [FileAccess (StateM σ)]

/-- A medium is emitted in both orders or refused in both. -/
theorem media_meets (emitter : Emitter) (order other : ByteOrder) (node : Node) (before : σ) :
    Meets (MediaList.SameList order other) before
      ((emitter.inOrder order).media node : ExceptT EmitFault (StateM σ) Bytes)
      ((emitter.inOrder other).media node) := by
  refine (Meets.mk (.refl (emitter.classOf node))).bind fun found same hsame _ => ?_
  obtain rfl := hsame
  -- Files are looked for and read without regard to the order.
  refine (Meets.refl (node.data.media.mapM (emitter.mediaReference node))).bind
    fun references same hsame _ => ?_
  obtain rfl := hsame
  exact .mk (Matched.mapError (MediaList.encode_matched _ order other) _)

/-- Byte order never changes what is compiled: from any files, emission in two orders fails with one fault
or gives files that are the same to readers of their orders, and does the same to the files. -/
theorem emit_same_in_every_order (emitter : Emitter) (order other : ByteOrder) (node : Node) (before : σ) :
    Meets (SameFile order other node.kind) before
      ((emitter.inOrder order).emit node : ExceptT EmitFault (StateM σ) Bytes)
      ((emitter.inOrder other).emit node) := by
  unfold emit
  cases node.kind with
  | group => exact .mk (emitter.group_matched order other node)
  | scene => exact .mk (emitter.scene_matched order other node)
  | set => exact .mk (emitter.set_matched order other node)
  | media => exact emitter.media_meets order other node before
  | root | actor | role => exact .mk (.error _)

end Files

end Emitter

end StageArchive
