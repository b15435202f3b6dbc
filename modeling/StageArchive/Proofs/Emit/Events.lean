import StageArchive.Proofs.Emit.Files
import StageArchive.Proofs.Instruction.Replay
/-!
# An emitted stream says what the tree says

What the tree says is a list of events: the opening, flags, binding, properties, roles and closing of
each part of an entity, in authoring order. `Encoder.Says` follows emission through the encoder as
`Encoder.Names` does, one lemma for each part, and says which events the calls are meant to say. No part
of an entity is written with a call that sets the offset register behind the encoder's back, so what is
meant is what a decoder reads.
-/

namespace StageArchive

/-- From one state of an encoder to another it is given calls that are meant to say some events, which
depend on the order that the names of media end up in. No call is one that a decoder misunderstands. -/
def Encoder.Says (encoder : Encoder) (events : List String → List StreamEvent) (after : Encoder) :
    Prop :=
  ∃ calls answers, encoder.record calls = .ok (after, answers) ∧
    (∀ call ∈ calls, call.IsAdmitted ∧ ∀ property, call ≠ .symbol .setOffset property) ∧
    ∀ names, calls.filterMap (·.event? names) = events names

namespace Encoder

/-- Calls that are made in two parts are made as a whole. -/
theorem record_append {encoder middle after : Encoder} {first second : List EncoderCall}
    {answers others : List (Option UInt32)} (hfirst : encoder.record first = .ok (middle, answers))
    (hsecond : middle.record second = .ok (after, others)) :
    encoder.record (first ++ second) = .ok (after, answers ++ others) := by
  induction first generalizing encoder answers with
  | nil =>
      cases hfirst
      exact hsecond
  | cons call calls ih =>
      obtain ⟨⟨next, answer⟩, hcall, hfirst⟩ := bind_eq_ok.mp hfirst
      obtain ⟨⟨last, rest⟩, hrest, hfirst⟩ := bind_eq_ok.mp hfirst
      cases hfirst
      exact bind_eq_ok.mpr ⟨_, hcall, bind_eq_ok.mpr ⟨_, ih hrest, rfl⟩⟩

namespace Says

/-- An encoder that is given no calls says nothing. -/
theorem refl (encoder : Encoder) : Says encoder (fun _ => []) encoder :=
  ⟨[], [], rfl, fun _ hcall => absurd hcall List.not_mem_nil, fun _ => rfl⟩

/-- What is said in two parts is said as a whole. -/
theorem trans {encoder middle after : Encoder} {first second : List String → List StreamEvent}
    (hfirst : Says encoder first middle) (hsecond : Says middle second after) :
    Says encoder (fun names => first names ++ second names) after := by
  obtain ⟨calls, answers, hcalls, hplain, hevents⟩ := hfirst
  obtain ⟨others, rest, hothers, hplains, hmore⟩ := hsecond
  refine ⟨calls ++ others, answers ++ rest, record_append hcalls hothers, ?_, ?_⟩
  · intro call hcall
    rcases List.mem_append.mp hcall with hcall | hcall
    · exact hplain call hcall
    · exact hplains call hcall
  · intro names
    rw [List.filterMap_append, hevents, hmore]

/-- A single call says its event. -/
theorem of_call {encoder after : Encoder} (call : EncoderCall) {answer : Option UInt32}
    {events : List String → List StreamEvent} (h : encoder.call call = .ok (after, answer))
    (hplain : call.IsAdmitted ∧ ∀ property, call ≠ .symbol .setOffset property)
    (hevents : ∀ names, (call.event? names).toList = events names) : Says encoder events after := by
  refine ⟨[call], [answer], bind_eq_ok.mpr ⟨_, h, rfl⟩, ?_, ?_⟩
  · intro other hother
    obtain rfl := List.mem_singleton.mp hother
    exact hplain
  · intro names
    rw [← hevents, List.filterMap_cons]
    cases call.event? names <;> rfl

/-- What a step says for each item of a list, all steps say together. -/
theorem of_foldlM {α : Type} {step : Encoder → α → Except EmitFault Encoder}
    (events : List String → α → List StreamEvent) {items : List α} {encoder after : Encoder}
    (h : items.foldlM step encoder = .ok after)
    (hstep : ∀ (encoder : Encoder) (item : α) (after : Encoder),
      step encoder item = .ok after → Says encoder (events · item) after) :
    Says encoder (fun names => items.flatMap (events names)) after := by
  -- Each item starts from the encoder that the items before it left.
  induction items generalizing encoder with
  | nil =>
      cases h
      exact refl _
  | cons item items ih =>
      rw [List.foldlM_cons] at h
      obtain ⟨middle, hmiddle, h⟩ := bind_eq_ok.mp h
      exact (hstep encoder item middle hmiddle).trans (ih h)

/-- A stream written from the start and finished decodes, and what is read is what was said. -/
theorem exists_decodeStream {order : ByteOrder} {events : List String → List StreamEvent}
    {after : Encoder} (h : Says (.start order) events after) :
    ∃ instructions, decodeStream order after.finish.bytes = .ok instructions ∧
      replay .blank instructions = events after.finish.names ++ [.mark .finish none] ∧
      (events after.finish.names).length < after.finish.bytes.length := by
  obtain ⟨calls, answers, hcalls, hplain, hevents⟩ := h
  obtain ⟨last, written, later, hrecord, -, hwrites⟩ :=
    writes_record (.start order) fun call hcall => (hplain call hcall).1
  rw [hcalls] at hrecord
  cases hrecord
  obtain ⟨instructions, -, -, -, -, hspelled, hfinished, hstream, hreplay⟩ :=
    hwrites.exists_readAll
  have hsaid : EncoderCall.said after.names.names none none calls = events after.finish.names := by
    rw [← hevents]
    exact EncoderCall.said_eq_iff.mpr
      (EncoderCall.inStep_of_forall fun call hcall => (hplain call hcall).2)
  have hevents : replay .blank instructions =
      events after.finish.names ++ [.mark .finish none] := by
    rw [← hsaid]
    exact hreplay
  refine ⟨instructions, ?_, hevents, ?_⟩
  · exact decodeStream_eq_ok_iff.mpr
      ⟨hspelled, hfinished, [], .inl rfl, by rw [hstream, List.append_nil]⟩
  · -- An instruction replays to one event at most and takes one byte at least.
    have hcount := congrArg List.length hevents
    have hreplayed := length_replay_le .blank instructions
    have hbytes := hspelled.length_le
    rw [List.length_append, List.length_singleton] at hcount
    rw [hstream]
    omega

end Says

end Encoder

namespace Emitter

/-- The index of a name, where it has one. -/
def index? (emitter : Emitter) (space : Namespace) (name : String) : Option UInt32 :=
  (emitter.index space name).toOption

/-- The index of a node's class, where it has one. -/
def classIndex? (emitter : Emitter) (node : Node) : Option UInt32 :=
  (emitter.classOf node).toOption.map (·.2)

/-- An opcode with the index of a symbol. -/
def symbolEvent (opcode : Opcode) (index : Option UInt32) : StreamEvent :=
  .mark opcode (index.map .index)

/-- A node is opened with the index of its class and named by its instance name. -/
def openingEvents (emitter : Emitter) (opcode : Opcode) (node : Node) : List StreamEvent :=
  [symbolEvent opcode (emitter.classIndex? node),
    symbolEvent .name (emitter.index? .instances node.name)]

/-- Flags are said only when there are any. -/
def flagEvents (node : Node) : List StreamEvent :=
  if node.data.flags = 0 then [] else [.mark .flags (some (.word node.data.flags))]

/-- The set that an actor is bound to is said when it has one. -/
def bindingEvents (emitter : Emitter) (actor : Node) : List StreamEvent :=
  match actor.data.attribute? "set" with
  | none => []
  | some name => [symbolEvent .bindSet (emitter.index? .instances name)]

/-- The property of a class has its encoded value, or the number of the medium that it refers to. -/
def propertyEvent (emitter : Emitter) (names : List String) (className : String)
    (property : Property) : StreamEvent :=
  let target := emitter.index? .property (qualifiedProperty className property.name)
  match property.value.encode emitter.config.byteOrder emitter.config.scalar with
  | .ok (.bytes value) => .value target (some value)
  | .ok (.asset name) => .medium target (some (UInt32.ofNat (names.idxOf name)))
  | .error _ => .value target none

/-- The properties of a node's class, in order. -/
def propertyEvents (emitter : Emitter) (names : List String) (node : Node) : List StreamEvent :=
  match emitter.resolver node with
  | none => []
  | some info => node.data.properties.map (emitter.propertyEvent names info.name)

/-- What the tree says of a role. -/
def roleEvents (emitter : Emitter) (names : List String) (role : Node) : List StreamEvent :=
  emitter.openingEvents .role role ++ flagEvents role ++ emitter.propertyEvents names role ++
    [.mark .endRole none]

/-- What the tree says of an actor and its roles. -/
def actorEvents (emitter : Emitter) (names : List String) (actor : Node) : List StreamEvent :=
  emitter.openingEvents .actor actor ++ flagEvents actor ++ emitter.bindingEvents actor ++
    emitter.propertyEvents names actor ++
    (actor.childrenOfKind .role).flatMap (emitter.roleEvents names) ++ [.mark .endActor none]

/-- What the tree says of a group. -/
def groupEvents (emitter : Emitter) (names : List String) (node : Node) : List StreamEvent :=
  (node.childrenOfKind .actor).flatMap (emitter.actorEvents names)

/-- What the tree says of a group in its scene. -/
def memberEvents (emitter : Emitter) (group : Node) : List StreamEvent :=
  emitter.openingEvents .beginGroup group ++ [.mark .endGroup none]

/-- What the tree says of a scene. -/
def sceneEvents (emitter : Emitter) (names : List String) (node : Node) : List StreamEvent :=
  flagEvents node ++ emitter.propertyEvents names node ++
    (node.childrenOfKind .group).flatMap emitter.memberEvents

/-- What the tree says of a set. -/
def setEvents (emitter : Emitter) (node : Node) : List StreamEvent :=
  [symbolEvent .name (emitter.index? .instances node.name)] ++ flagEvents node ++
    emitter.propertyEvents [] node

/-- A payload is taken apart into the class of an entity, the number of its members and a stream that
says some events and then ends. -/
def PayloadSays (emitter : Emitter) (bytes : Bytes) (classIndex : Option UInt32)
    (members : List Node) (events : List StreamEvent) : Prop :=
  ∃ payload instructions,
    EntityPayload.decode emitter.config.byteOrder bytes = .ok payload ∧
    some payload.header.classIndex = classIndex ∧ payload.header.count.toNat = members.length ∧
    payload.instructions emitter.config.byteOrder = .ok instructions ∧
    replay .blank instructions = events ++ [.mark .finish none]

/-- The file of a set is taken apart into its class and a stream that says some events and then
ends. -/
def SetFileSays (emitter : Emitter) (bytes : Bytes) (classIndex : Option UInt32)
    (events : List StreamEvent) : Prop :=
  ∃ inside payload instructions,
    SetPayload.ofFile emitter.config.byteOrder bytes = .ok inside ∧
    SetPayload.decode emitter.config.byteOrder inside = .ok payload ∧
    some payload.classIndex = classIndex ∧
    decodeStream emitter.config.byteOrder payload.stream = .ok instructions ∧
    replay .blank instructions = events ++ [.mark .finish none]

variable {emitter : Emitter}

/-- An index that is found is the one there is. -/
theorem index?_of_eq {space : Namespace} {name : String} {index : UInt32}
    (h : emitter.index space name = .ok index) : emitter.index? space name = some index := by
  rw [index?, h]
  rfl

/-- A class that is found is the one that the node has, with its index. -/
theorem classOf_eq_ok {node : Node} {info : ClassInfo} {index : UInt32}
    (h : emitter.classOf node = .ok (info, index)) :
    emitter.resolver node = some info ∧ emitter.classIndex? node = some index := by
  refine ⟨?_, by rw [classIndex?, h]; rfl⟩
  unfold classOf at h
  split at h
  · rename_i hresolver
    obtain ⟨found, -, h⟩ := bind_eq_ok.mp h
    cases h
    exact hresolver
  · cases h

/-- The flags of a node are said. -/
theorem says_appendFlags (encoder : Encoder) (node : Node) :
    Encoder.Says encoder (fun _ => flagEvents node) (appendFlags encoder node) := by
  unfold appendFlags flagEvents
  split
  · exact .refl encoder
  · exact .of_call (.flags node.data.flags) rfl ⟨trivial, fun _ => nofun⟩ fun _ => rfl

/-- An opcode with a symbol is said, when it is not the one that sets the offset register. -/
theorem says_symbol (encoder : Encoder) {opcode : Opcode} {space : Namespace}
    (hkind : opcode.operand? = some (.symbol space)) (hregister : opcode ≠ .setOffset)
    (index : UInt32) :
    Encoder.Says encoder (fun _ => [symbolEvent opcode (some index)])
      (encoder.symbol opcode index) := by
  refine .of_call (.symbol opcode index) (by simp only [Encoder.call, hkind]; rfl)
    ⟨⟨space, hkind⟩, ?_⟩ ?_
  · rintro property hcall
    cases hcall
    exact hregister rfl
  · intro names
    cases opcode <;> first | rfl | exact absurd rfl hregister

/-- An opcode without operand is said. -/
theorem says_plain (encoder : Encoder) {opcode : Opcode} (hnone : opcode.operand? = none)
    (hfinish : opcode ≠ .finish) :
    Encoder.Says encoder (fun _ => [.mark opcode none]) (encoder.emit opcode []) :=
  .of_call (.plain opcode) (by simp only [Encoder.call, hnone]; rfl)
    ⟨⟨hnone, hfinish⟩, fun _ => nofun⟩ fun _ => rfl

/-- A property of a class is said. -/
theorem says_of_appendProperty {className : String} {encoder after : Encoder}
    {property : Property} (h : emitter.appendProperty className encoder property = .ok after) :
    Encoder.Says encoder (fun names => [emitter.propertyEvent names className property]) after := by
  obtain ⟨index, hindex, h⟩ := bind_eq_ok.mp h
  obtain ⟨encoded, hencoded, h⟩ := bind_eq_ok.mp h
  have htarget := index?_of_eq hindex
  have hencoded := mapError_eq_ok.mp hencoded
  cases encoded with
  | bytes value =>
      have hproperty := mapError_eq_ok.mp h
      refine .of_call (.property index value) (by rw [Encoder.call, hproperty]; rfl)
        ⟨Encoder.length_lt_of_property hproperty, fun _ hcall => by cases hcall⟩ ?_
      intro names
      simp only [propertyEvent, htarget, hencoded]
      rfl
  | asset name =>
      dsimp only at h
      split at h
      · cases h
      · cases h
        refine .of_call (.mediaRef index (.pending name)) rfl
          ⟨trivial, fun _ hcall => by cases hcall⟩ ?_
        intro names
        simp only [propertyEvent, htarget, hencoded]
        rfl

/-- The properties of a node are said, when they are appended for its class. -/
theorem says_of_appendProperties {info : ClassInfo} {encoder after : Encoder} {node : Node}
    (hclass : emitter.resolver node = some info)
    (h : emitter.appendProperties info.name encoder node = .ok after) :
    Encoder.Says encoder (fun names => emitter.propertyEvents names node) after := by
  have hspoken := Encoder.Says.of_foldlM
    (fun names property => [emitter.propertyEvent names info.name property]) h
    fun _ _ _ hproperty => says_of_appendProperty hproperty
  have hevents (names : List String) :
      emitter.propertyEvents names node =
        node.data.properties.flatMap fun property =>
          [emitter.propertyEvent names info.name property] := by
    simp only [propertyEvents, hclass]
    exact List.map_eq_flatMap
  simpa only [hevents] using hspoken

/-- The opening of a node is said. -/
theorem says_of_appendOpening {opcode : Opcode} {space : Namespace}
    (hkind : opcode.operand? = some (.symbol space)) (hregister : opcode ≠ .setOffset)
    {encoder after : Encoder} {node : Node} {info : ClassInfo}
    (h : emitter.appendOpening opcode encoder node = .ok (after, info)) :
    Encoder.Says encoder (fun _ => emitter.openingEvents opcode node) after ∧
      emitter.resolver node = some info := by
  obtain ⟨⟨found, index⟩, hclass, h⟩ := bind_eq_ok.mp h
  obtain ⟨name, hname, h⟩ := bind_eq_ok.mp h
  cases h
  obtain ⟨hresolver, hindex⟩ := classOf_eq_ok hclass
  have hopened := says_symbol encoder hkind hregister index
  have hnamed := says_symbol (encoder.symbol opcode index) (rfl : Opcode.name.operand? = _)
    (by decide) name
  refine ⟨?_, hresolver⟩
  simp only [openingEvents, hindex, index?_of_eq hname]
  exact hopened.trans hnamed

/-- A role is said. -/
theorem says_of_appendRole {encoder after : Encoder} {role : Node}
    (h : emitter.appendRole encoder role = .ok after) :
    Encoder.Says encoder (fun names => emitter.roleEvents names role) after := by
  obtain ⟨⟨opened, info⟩, hopened, h⟩ := bind_eq_ok.mp h
  obtain ⟨filled, hfilled, h⟩ := bind_eq_ok.mp h
  cases h
  obtain ⟨hopening, hclass⟩ := says_of_appendOpening rfl (by decide) hopened
  have hflags := says_appendFlags opened role
  have hproperties := says_of_appendProperties hclass hfilled
  have hclosing := says_plain filled (rfl : Opcode.endRole.operand? = none) (by decide)
  exact ((hopening.trans hflags).trans hproperties).trans hclosing

/-- The set that an actor is bound to is said. -/
theorem says_of_appendBinding {encoder after : Encoder} {actor : Node}
    (h : emitter.appendBinding encoder actor = .ok after) :
    Encoder.Says encoder (fun _ => emitter.bindingEvents actor) after := by
  unfold appendBinding at h
  unfold bindingEvents
  cases hset : actor.data.attribute? "set" with
  | none =>
      rw [hset] at h
      cases h
      exact .refl encoder
  | some name =>
      rw [hset] at h
      obtain ⟨index, hindex, h⟩ := bind_eq_ok.mp h
      cases h
      have hinstance : emitter.index? .instances name = some index := by
        unfold setIndex at hindex
        split at hindex
        · exact index?_of_eq hindex
        · cases hindex
      simpa only [hinstance] using
        says_symbol encoder (rfl : Opcode.bindSet.operand? = _) (by decide) index

/-- An actor is said, and its roles. -/
theorem says_of_appendActor {encoder after : Encoder} {actor : Node}
    (h : emitter.appendActor encoder actor = .ok after) :
    Encoder.Says encoder (fun names => emitter.actorEvents names actor) after := by
  obtain ⟨⟨opened, info⟩, hopened, h⟩ := bind_eq_ok.mp h
  obtain ⟨bound, hbound, h⟩ := bind_eq_ok.mp h
  obtain ⟨filled, hfilled, h⟩ := bind_eq_ok.mp h
  obtain ⟨played, hplayed, h⟩ := bind_eq_ok.mp h
  cases h
  obtain ⟨hopening, hclass⟩ := says_of_appendOpening rfl (by decide) hopened
  have hflags := says_appendFlags opened actor
  have hbinding := says_of_appendBinding hbound
  have hproperties := says_of_appendProperties hclass hfilled
  have hroles := Encoder.Says.of_foldlM emitter.roleEvents hplayed fun _ _ _ hrole =>
    says_of_appendRole hrole
  have hclosing := says_plain played (rfl : Opcode.endActor.operand? = none) (by decide)
  exact ((((hopening.trans hflags).trans hbinding).trans hproperties).trans hroles).trans hclosing

/-- A group of a scene is said by its name. -/
theorem says_of_appendGroup {encoder after : Encoder} {group : Node}
    (h : emitter.appendGroup encoder group = .ok after) :
    Encoder.Says encoder (fun _ => emitter.memberEvents group) after := by
  obtain ⟨⟨opened, info⟩, hopened, h⟩ := bind_eq_ok.mp h
  cases h
  obtain ⟨hopening, -⟩ := says_of_appendOpening rfl (by decide) hopened
  exact hopening.trans (says_plain opened (rfl : Opcode.endGroup.operand? = none) (by decide))

/-- Where something is said of each of some members, at least as many things are said. -/
theorem length_le_length_flatMap {members : List Node} {events : Node → List StreamEvent}
    (h : ∀ member, events member ≠ []) : members.length ≤ (members.flatMap events).length := by
  induction members with
  | nil => exact Nat.le_refl 0
  | cons member members ih =>
      have hfirst := List.length_pos_iff.mpr (h member)
      rw [List.flatMap_cons, List.length_append, List.length_cons]
      omega

/-- The payload of a stream that says something of each member says it all. -/
theorem payloadSays_of_payload {classIndex : UInt32} {members : List Node}
    {events : List String → List StreamEvent} {encoder : Encoder} {bytes : Bytes}
    (hspoken : Encoder.Says emitter.startStream events encoder)
    (hmembers : ∀ names, members.length ≤ (events names).length)
    (h : emitter.payload classIndex members encoder = .ok bytes) :
    emitter.PayloadSays bytes (some classIndex) members (events encoder.finish.names) := by
  obtain ⟨hfits, rfl⟩ := EntityPayload.build_eq_ok.mp h
  obtain ⟨instructions, hstream, hreplay, hcount⟩ := hspoken.exists_decodeStream
  obtain ⟨payload, hpayload, hheader, hinstructions, -⟩ :=
    EntityPayload.exists_decode_of_decodeStream encoder.finish.names hstream hfits
  refine ⟨payload, instructions, hpayload, by rw [hheader], ?_, hinstructions, hreplay⟩
  -- The stream holds at least as many bytes as there are members, and its length fits in a word.
  have hnumber : members.length < 2 ^ 32 := by
    have hsaid := hmembers encoder.finish.names
    rw [EntityPayload.tableOffset] at hfits
    omega
  rw [hheader]
  exact UInt32.toNat_ofNat_of_lt' hnumber

/-- The names of a stream that names media are these, each once and in order of first mention. -/
theorem names_finish {media : List String} {encoder : Encoder}
    (h : Encoder.Names emitter.startStream media encoder) :
    encoder.finish.names = media.eraseDups := by
  obtain ⟨⟨instructions, happends⟩, -⟩ := h
  rw [← NameIndex.names_ofList]
  exact congrArg NameIndex.names happends.names_eq

/-- The file of a group says what the tree says of its actors. -/
theorem payloadSays_of_group {node : Node} {bytes : Bytes} (h : emitter.group node = .ok bytes) :
    emitter.PayloadSays bytes (emitter.classIndex? node) (node.childrenOfKind .actor)
      (emitter.groupEvents ((node.childrenOfKind .actor).flatMap Node.actorMedia).eraseDups
        node) := by
  obtain ⟨⟨info, classIndex⟩, hclass, h⟩ := bind_eq_ok.mp h
  obtain ⟨encoder, hencoder, h⟩ := bind_eq_ok.mp h
  have hnames := names_finish (Encoder.Names.of_foldlM Node.actorMedia hencoder fun _ _ _ hactor =>
    names_of_appendActor hactor)
  have hspoken := Encoder.Says.of_foldlM emitter.actorEvents hencoder fun _ _ _ hactor =>
    says_of_appendActor hactor
  have hmembers (names : List String) : (node.childrenOfKind .actor).length ≤
      (emitter.groupEvents names node).length :=
    length_le_length_flatMap fun actor => by simp [actorEvents]
  rw [(classOf_eq_ok hclass).2, ← hnames]
  exact payloadSays_of_payload hspoken hmembers h

/-- The file of a scene says what the tree says of it and of its groups. -/
theorem payloadSays_of_scene {node : Node} {bytes : Bytes} (h : emitter.scene node = .ok bytes) :
    emitter.PayloadSays bytes (emitter.classIndex? node) (node.childrenOfKind .group)
      (emitter.sceneEvents node.mediaNames.eraseDups node) := by
  obtain ⟨⟨info, classIndex⟩, hclass, h⟩ := bind_eq_ok.mp h
  obtain ⟨filled, hfilled, h⟩ := bind_eq_ok.mp h
  obtain ⟨encoder, hencoder, h⟩ := bind_eq_ok.mp h
  obtain ⟨hresolver, hindex⟩ := classOf_eq_ok hclass
  have hflags := says_appendFlags emitter.startStream node
  have hproperties := says_of_appendProperties hresolver hfilled
  have hgroups := Encoder.Says.of_foldlM (fun _ => emitter.memberEvents) hencoder
    fun _ _ _ hgroup => says_of_appendGroup hgroup
  have hspoken := (hflags.trans hproperties).trans hgroups
  have hmembers (names : List String) : (node.childrenOfKind .group).length ≤
      (emitter.sceneEvents names node).length := by
    have hsaid : (node.childrenOfKind .group).length ≤
        ((node.childrenOfKind .group).flatMap emitter.memberEvents).length :=
      length_le_length_flatMap fun group => by simp [memberEvents]
    simp only [sceneEvents, List.length_append]
    omega
  rw [hindex, ← names_finish (names_of_sceneStream hfilled hencoder)]
  exact payloadSays_of_payload hspoken hmembers h

/-- The file of a set says what the tree says of it. -/
theorem setFileSays_of_set {node : Node} {bytes : Bytes} (h : emitter.set node = .ok bytes) :
    emitter.SetFileSays bytes (emitter.classIndex? node) (emitter.setEvents node) := by
  obtain ⟨⟨info, classIndex⟩, hclass, h⟩ := bind_eq_ok.mp h
  dsimp only at h
  split at h
  · cases h
  · rename_i hmedia
    obtain ⟨name, hname, h⟩ := bind_eq_ok.mp h
    obtain ⟨encoder, hencoder, h⟩ := bind_eq_ok.mp h
    obtain ⟨hfits, rfl⟩ := setFile_eq_ok h
    obtain ⟨hresolver, hindex⟩ := classOf_eq_ok hclass
    have hnamed := says_symbol emitter.startStream (rfl : Opcode.name.operand? = _) (by decide) name
    have hflags := says_appendFlags (emitter.startStream.symbol .name name) node
    have hproperties := says_of_appendProperties hresolver hencoder
    obtain ⟨instructions, hstream, hreplay, -⟩ :=
      ((hnamed.trans hflags).trans hproperties).exists_decodeStream
    rw [names_finish (names_of_setStream hmedia hencoder)] at hreplay
    refine ⟨_, ⟨classIndex, encoder.finish.bytes⟩, instructions,
      SetPayload.ofFile_encodeFile classIndex hfits, SetPayload.decode_append .., hindex.symm,
      hstream, ?_⟩
    rw [setEvents, index?_of_eq hname]
    exact hreplay

/-- What is emitted says what the tree says, whatever the tree, its classes and its symbols. The stream
of a group says each actor with its roles, that of a scene the scene itself and then each group by its
name, and that of a set the set, in authoring order and nothing else; every value and medium belongs to
the property that it is given for. The payload of a group or scene has the class of the node, and counts
its actors or its groups. -/
theorem emitted_replays (emitter : Emitter) (node : Node) (bytes : Bytes) :
    (emitter.group node = .ok bytes →
      emitter.PayloadSays bytes (emitter.classIndex? node) (node.childrenOfKind .actor)
        (emitter.groupEvents ((node.childrenOfKind .actor).flatMap Node.actorMedia).eraseDups
          node)) ∧
    (emitter.scene node = .ok bytes →
      emitter.PayloadSays bytes (emitter.classIndex? node) (node.childrenOfKind .group)
        (emitter.sceneEvents node.mediaNames.eraseDups node)) ∧
    (emitter.set node = .ok bytes →
      emitter.SetFileSays bytes (emitter.classIndex? node) (emitter.setEvents node)) :=
  ⟨payloadSays_of_group, payloadSays_of_scene, setFileSays_of_set⟩

/-- A set. -/
def lamp : Node :=
  .mk ⟨.set, "lamp", [("class", "Lamp")], 3, [⟨"power", .int 5⟩], []⟩ []

/-- A group with an actor that is bound to the set and has a role. -/
def party : Node :=
  .mk ⟨.group, "party", [("class", "Party")], 0, [], []⟩
    [.mk ⟨.actor, "player", [("class", "Player"), ("set", "lamp")], 1,
      [⟨"face", .mediaRef "a"⟩, ⟨"label", .string "x"⟩], []⟩
      [.mk ⟨.role, "part", [("class", "Part")], 0, [⟨"icon", .mediaRef "b"⟩], []⟩ []]]

/-- A scene with the group. -/
def arrival : Node :=
  .mk ⟨.scene, "arrival", [("class", "Arrival")], 2, [⟨"score", .mediaRef "a"⟩], []⟩ [party]

/-- What a tree with the set and the scene is emitted with. -/
def ofArrival : Emitter :=
  let root : Node := .mk ⟨.root, "play", [], 0, [], []⟩ [lamp, arrival]
  ⟨root, .attributes, .scan .attributes root, .standard⟩

/-- A group whose actor is bound to a set and has a role, a scene with that group, and the set. Two
properties of the actor and one of the role refer to media or hold a value. -/
theorem emitted_replays_arrival :
    ∃ group scene set,
      ofArrival.group party = .ok group ∧ ofArrival.scene arrival = .ok scene ∧
      ofArrival.set lamp = .ok set ∧
      ofArrival.PayloadSays group (some 0) (party.childrenOfKind .actor)
        [.mark .actor (some (.index 0)), .mark .name (some (.index 3)),
          .mark .flags (some (.word 1)), .mark .bindSet (some (.index 0)),
          .medium (some 3) (some 0), .value (some 4) (some [120, 0]),
          .mark .role (some (.index 0)), .mark .name (some (.index 1)),
          .medium (some 2) (some 1), .mark .endRole none, .mark .endActor none] ∧
      ofArrival.PayloadSays scene (some 0) (arrival.childrenOfKind .group)
        [.mark .flags (some (.word 2)), .medium (some 0) (some 0),
          .mark .beginGroup (some (.index 0)), .mark .name (some (.index 2)),
          .mark .endGroup none] ∧
      ofArrival.SetFileSays set (some 0)
        [.mark .name (some (.index 0)), .mark .flags (some (.word 3)),
          .value (some 1) (some [0, 0, 0, 5])] := by
  have hgroup := (emitted_replays ofArrival party _).1 rfl
  have hscene := (emitted_replays ofArrival arrival _).2.1 rfl
  have hset := (emitted_replays ofArrival lamp _).2.2 rfl
  exact ⟨_, _, _, rfl, rfl, rfl, hgroup, hscene, hset⟩

end Emitter

end StageArchive
