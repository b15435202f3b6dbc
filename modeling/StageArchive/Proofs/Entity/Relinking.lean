import StageArchive.Entity.Relinking
import StageArchive.Proofs.Entity.Payload
import StageArchive.Proofs.Entity.Renumbering
/-!
# Linking replaces the numbers of media and nothing else

A stream is decoded before it is linked, so an instruction is told from bytes that look like one. When
the container has the media that an entity refers to, `relinkEntity_of_hasMedia` makes linking the
building of a payload from the instructions with the container's numbers in them, and that fails only
for their length. For payloads that an encoder made, the name of a medium is followed all the way: the
encoder numbers it, the name table carries it, and linking finds it among the media of the container.
-/

namespace StageArchive

/-- What an instruction says, apart from the medium that it refers to. -/
def Instruction.skeleton (instruction : Instruction) :
    Opcode × Option OperandKind × Option OperandValue :=
  (instruction.opcode, instruction.operand.map (·.kind),
    if instruction.opcode = .copyMediaRef then none else instruction.operand.map (·.value))

namespace Renumbers

variable {order : ByteOrder} {registers : Registers} {position start : Nat}
  {instructions linked : List Instruction} {numbers : List UInt32}

/-- Renumbered instructions say what the instructions said, apart from the media. -/
theorem skeletons_eq (h : Renumbers position instructions numbers linked)
    (hspelled : Spelled order registers start instructions) :
    linked.map (·.skeleton) = instructions.map (·.skeleton) := by
  induction h generalizing registers start with
  | nil => rfl
  | asset hasset hrest ih =>
      obtain ⟨number, digits, hoperand, -, -⟩ := hspelled.2.1.asset_eq hasset
      rw [List.map_cons, List.map_cons, ih hspelled.2.2]
      simp only [Instruction.skeleton, hoperand, hasset]
      rfl
  | other hasset hrest ih =>
      rw [List.map_cons, List.map_cons, ih hspelled.2.2]
      rfl

/-- Renumbered instructions refer to media by the numbers given, in order. -/
theorem assetOperands_eq (h : Renumbers position instructions numbers linked) :
    assetOperands linked = numbers.map some := by
  induction h with
  | nil => rfl
  | asset hasset hrest ih =>
      rw [assetOperands_cons, ih]
      rfl
  | other hasset hrest ih => rw [assetOperands_cons, if_neg hasset, ih, List.nil_append]

/-- Renumbered instructions are finished when the instructions are, and are decoded from their bytes. -/
theorem decodeStream_eq (h : Renumbers 0 instructions numbers linked)
    (hspelled : Spelled order .blank start instructions) (hfinished : IsFinished instructions) :
    decodeStream order (streamBytes linked) = .ok linked :=
  decodeStream_eq_ok_iff.mpr ⟨h.spelled hspelled, hfinished.of_opcodes h.opcodes_eq, [], .inl rfl,
    (List.append_nil _).symm⟩

/-- Each number takes an opcode and its digits. -/
theorem length_le_of_digits {least : Nat} (h : Renumbers position instructions numbers linked)
    (hleast : ∀ number ∈ numbers, least ≤ (IndexCode.encode number).length) :
    numbers.length * (least + 1) ≤ (streamBytes linked).length := by
  induction h with
  | nil => exact Nat.le_of_eq (Nat.zero_mul _)
  | asset hasset hrest ih =>
      obtain ⟨hfirst, hothers⟩ := List.forall_mem_cons.mp hleast
      rw [List.length_cons, Nat.succ_mul, Nat.add_comm, streamBytes_cons, List.length_append]
      exact Nat.add_le_add (Nat.succ_le_succ hfirst) (ih hothers)
  | other hasset hrest ih =>
      rw [streamBytes_cons, List.length_append]
      exact Nat.le_trans (ih hleast) (Nat.le_add_left ..)

end Renumbers

/-- A number of an entity stands for the container's number of the medium with the entity's name
for it. -/
theorem resolveLocal_toOption (names : List String) (assets : NameIndex) (number : UInt32) :
    (resolveLocal names assets number).toOption = names[number.toNat]?.bind assets.number? := by
  unfold resolveLocal
  cases names[number.toNat]? with
  | none => rfl
  | some name =>
      simp only [AssetRef.resolve, Option.bind_some]
      cases assets.number? name <;> rfl

namespace EntityPayload

/-- A container has the media that an entity refers to: each number of the entity has a name, and
there is a medium of this name. -/
def HasMedia (payload : EntityPayload) (assets : NameIndex) (original : List Instruction) : Prop :=
  ∀ number ∈ assetNumbers original,
    ∃ name ∈ assets.names, payload.mediumName? number = some name

/-- The container's numbers for the media that an entity refers to, in order. -/
def linkedNumbers (payload : EntityPayload) (assets : NameIndex) (original : List Instruction) :
    List UInt32 :=
  (assetNumbers original).filterMap fun number => (payload.mediumName? number).bind assets.number?

/-- The instructions of an entity with these numbers in them. -/
def linkedInstructions (payload : EntityPayload) (assets : NameIndex)
    (original : List Instruction) : List Instruction :=
  renumber 0 original (payload.linkedNumbers assets original)

variable {order : ByteOrder} {assets : NameIndex} {payload : EntityPayload}
  {original : List Instruction}

/-- Exactly when the container has the media of an entity the entity's numbers are resolved, to the
container's numbers for them. -/
theorem mapM_resolveLocal_eq_ok {numbers : List UInt32} :
    (assetNumbers original).mapM (resolveLocal payload.names assets) = .ok numbers ↔
      payload.HasMedia assets original ∧ numbers = payload.linkedNumbers assets original := by
  have hlinked {numbers : List UInt32}
      (h : (assetNumbers original).mapM (resolveLocal payload.names assets) = .ok numbers) :
      numbers = payload.linkedNumbers assets original := by
    have hnumbers := congrArg (List.filterMap id) (map_some_of_mapM h)
    rw [List.filterMap_map, List.filterMap_map] at hnumbers
    simp only [Function.comp_def, id, List.filterMap_some, resolveLocal_toOption] at hnumbers
    exact hnumbers
  constructor
  · intro h
    refine ⟨fun number hnumber => ?_, hlinked h⟩
    have hmem := List.mem_map_of_mem (f := fun number =>
      (resolveLocal payload.names assets number).toOption) hnumber
    rw [← map_some_of_mapM h, resolveLocal_toOption] at hmem
    obtain ⟨resolved, -, hresolved⟩ := List.mem_map.mp hmem
    obtain ⟨name, hname, hfound⟩ := Option.bind_eq_some_iff.mp hresolved.symm
    obtain ⟨place, hplace, -⟩ := NameIndex.number?_eq_some.mp hfound
    exact ⟨name, List.mem_of_getElem? hplace, hname⟩
  · rintro ⟨hmedia, rfl⟩
    obtain ⟨numbers, hnumbers⟩ : ∃ numbers,
        (assetNumbers original).mapM (resolveLocal payload.names assets) = .ok numbers := by
      refine exists_mapM_eq_ok fun number hnumber => ?_
      obtain ⟨name, hname, hmedium⟩ := hmedia number hnumber
      have hfound : (resolveLocal payload.names assets number).toOption =
          some (UInt32.ofNat (assets.names.idxOf name)) := by
        rw [resolveLocal_toOption, ← NameIndex.number?_of_mem hname]
        exact congrArg (·.bind assets.number?) hmedium
      cases hresolve : resolveLocal payload.names assets number with
      | ok resolved => exact ⟨resolved, rfl⟩
      | error fault =>
          rw [hresolve] at hfound
          cases hfound
    rw [hnumbers, hlinked hnumbers]

/-- The container's numbers are those that the entity's numbers stand for. -/
theorem HasMedia.linkedNumbers_eq (h : payload.HasMedia assets original) :
    (payload.linkedNumbers assets original).map some = (assetNumbers original).map fun number =>
      (payload.mediumName? number).bind assets.number? := by
  rw [map_some_of_mapM (mapM_resolveLocal_eq_ok.mpr ⟨h, rfl⟩)]
  exact List.map_congr_left fun number _ => resolveLocal_toOption ..

/-- Linking puts the container's numbers in the place of the entity's. -/
theorem HasMedia.renumbers (h : payload.HasMedia assets original)
    (hstream : payload.instructions order = .ok original) :
    Renumbers 0 original (payload.linkedNumbers assets original)
      (payload.linkedInstructions assets original) := by
  refine renumbers_renumber (decodeStream_eq_ok_iff.mp hstream).1 ?_
  simpa only [List.length_map] using congrArg List.length h.linkedNumbers_eq

/-- Linked instructions are decoded from their bytes. -/
theorem HasMedia.decodeStream_eq (h : payload.HasMedia assets original)
    (hstream : payload.instructions order = .ok original) :
    decodeStream order (streamBytes (payload.linkedInstructions assets original)) =
      .ok (payload.linkedInstructions assets original) := by
  obtain ⟨hspelled, hfinished, -⟩ := decodeStream_eq_ok_iff.mp hstream
  exact (h.renumbers hstream).decodeStream_eq hspelled hfinished

/-- Linked instructions say what the instructions said, with the numbers of media replaced. -/
theorem HasMedia.tells (h : payload.HasMedia assets original)
    (hstream : payload.instructions order = .ok original) :
    (payload.linkedInstructions assets original).map (·.skeleton) = original.map (·.skeleton) ∧
      assetOperands (payload.linkedInstructions assets original) = (assetOperands original).map
        (·.bind fun number => (payload.mediumName? number).bind assets.number?) := by
  obtain ⟨hspelled, -, -⟩ := decodeStream_eq_ok_iff.mp hstream
  refine ⟨(h.renumbers hstream).skeletons_eq hspelled, ?_⟩
  rw [(h.renumbers hstream).assetOperands_eq, h.linkedNumbers_eq, assetOperands_eq_map hspelled,
    List.map_map]
  rfl

end EntityPayload

section Linking

variable {order : ByteOrder} {assets : NameIndex} {bytes linked : Bytes} {payload : EntityPayload}
  {original : List Instruction}

/-- Linking an entity that decodes is resolving its numbers in order and building its payload with what
they resolve to. -/
theorem relinkEntity_eq (hpayload : EntityPayload.decode order bytes = .ok payload)
    (hstream : payload.instructions order = .ok original) :
    relinkEntity order assets bytes =
      (assetNumbers original).mapM (resolveLocal payload.names assets) >>= fun numbers =>
        EntityPayload.build .payloadTooLong order payload.header
          (streamBytes (renumber 0 original numbers)) [] := by
  simp only [relinkEntity, hpayload, relinkStream_eq hstream, bind_map_left]

/-- When the container has the media of an entity, linking is building the payload of the linked
instructions. -/
theorem relinkEntity_of_hasMedia (hpayload : EntityPayload.decode order bytes = .ok payload)
    (hstream : payload.instructions order = .ok original)
    (hmedia : payload.HasMedia assets original) :
    relinkEntity order assets bytes =
      EntityPayload.build .payloadTooLong order payload.header
        (streamBytes (payload.linkedInstructions assets original)) [] := by
  rw [relinkEntity_eq hpayload hstream, EntityPayload.mapM_resolveLocal_eq_ok.mpr ⟨hmedia, rfl⟩]
  rfl

/-- An entity is linked exactly when the container has its media and the linked payload is not too long
for the offset in it. -/
theorem relinkEntity_eq_ok_iff (hpayload : EntityPayload.decode order bytes = .ok payload)
    (hstream : payload.instructions order = .ok original) :
    relinkEntity order assets bytes = .ok linked ↔
      payload.HasMedia assets original ∧
      EntityPayload.tableOffset payload.header
        (streamBytes (payload.linkedInstructions assets original)) < 2 ^ 32 ∧
      linked = EntityPayload.encode order payload.header
        (streamBytes (payload.linkedInstructions assets original)) [] := by
  rw [relinkEntity_eq hpayload hstream, bind_eq_ok]
  constructor
  · rintro ⟨numbers, hnumbers, hbuild⟩
    obtain ⟨hmedia, rfl⟩ := EntityPayload.mapM_resolveLocal_eq_ok.mp hnumbers
    exact ⟨hmedia, EntityPayload.build_eq_ok.mp hbuild⟩
  · rintro ⟨hmedia, hbuild⟩
    exact ⟨_, EntityPayload.mapM_resolveLocal_eq_ok.mpr ⟨hmedia, rfl⟩,
      EntityPayload.build_eq_ok.mpr hbuild⟩

/-- An entity that is linked decodes. -/
theorem exists_decoded_of_relinkEntity (h : relinkEntity order assets bytes = .ok linked) :
    ∃ payload original, EntityPayload.decode order bytes = .ok payload ∧
      payload.instructions order = .ok original := by
  unfold relinkEntity at h
  split at h
  · cases h
  · rename_i payload hpayload
    obtain ⟨stream, hstream, -⟩ := bind_eq_ok.mp h
    unfold relinkStream at hstream
    split at hstream
    · cases hstream
    · rename_i original horiginal
      exact ⟨payload, original, hpayload, horiginal⟩

/-- A payload without names is taken apart again, also behind a zero byte that makes the length of
its chunk even. -/
theorem decode_linked {header : EntityHeader} {instructions : List Instruction} {pad : Bytes}
    (hstream : decodeStream order (streamBytes instructions) = .ok instructions)
    (hpad : IsPadding pad)
    (hfits : EntityPayload.tableOffset header (streamBytes instructions) < 2 ^ 32) :
    ∃ payload, EntityPayload.decode order
        (EntityPayload.encode order header (streamBytes instructions) [] ++ pad) = .ok payload ∧
      payload.header = header ∧ payload.names = [] ∧
      payload.nameTableOffset.toNat =
        (EntityPayload.encode order header (streamBytes instructions) []).length ∧
      payload.instructions order = .ok instructions := by
  refine ⟨_, EntityPayload.decode_append hfits (endIndex_of_decodeStream hstream)
    (NameTable.decode_of_empty _ hpad), rfl, rfl, ?_, hstream⟩
  rw [EntityPayload.length_encode_nil]
  exact UInt32.toNat_ofNat_of_lt' hfits

end Linking

/-- The payload of a stream that an encoder wrote decodes, and a container with all media that were named
has its media; the linked numbers are the container's numbers of these names. -/
theorem hasMedia_of_appends {order : ByteOrder} {header : EntityHeader} {assets : NameIndex}
    {after : Encoder} {written : List Instruction} {names : List String}
    (h : Encoder.Appends (.start order) written names after)
    (hfits : EntityPayload.tableOffset header after.finish.bytes < 2 ^ 32)
    (hnames : ∀ name ∈ names, name ≠ "" ∧ '\x00' ∉ name.toList ∧ name ∈ assets.names) :
    ∃ payload original,
      EntityPayload.decode order
        (EntityPayload.encode order header after.finish.bytes after.finish.names) = .ok payload ∧
      payload.header = header ∧ decodeStream order after.finish.bytes = .ok original ∧
      payload.instructions order = .ok original ∧ payload.HasMedia assets original ∧
      (payload.linkedNumbers assets original).map some = names.map assets.number? := by
  obtain ⟨payload, original, hpayload, hheader, horiginal, hstream, -⟩ :=
    EntityPayload.exists_decode_of_appends h hfits
  have htable := EntityPayload.names_of_appends h hfits
    (fun name hname => ⟨(hnames name hname).1, (hnames name hname).2.1⟩) hpayload
  have hoperands := EntityPayload.operands_of_names h hfits htable horiginal
  rw [assetOperands_eq_map (decodeStream_eq_ok_iff.mp horiginal).1, List.map_map] at hoperands
  have hmedia : payload.HasMedia assets original := by
    intro number hnumber
    -- The number stands for one of the names, and the container has a medium of that name.
    have hmem := List.mem_map_of_mem (f := payload.mediumName?) hnumber
    rw [show (assetNumbers original).map payload.mediumName? = names.map some from hoperands] at hmem
    obtain ⟨name, hname, hmedium⟩ := List.mem_map.mp hmem
    exact ⟨name, (hnames name hname).2.2, hmedium.symm⟩
  refine ⟨payload, original, hpayload, hheader, horiginal, hstream, hmedia, ?_⟩
  have hlinked := congrArg (List.map (·.bind assets.number?)) hoperands
  rw [hmedia.linkedNumbers_eq]
  simpa only [List.map_map, Function.comp_def, Option.bind_some] using hlinked

/-- Linking resolves every reference to a medium to the medium that was named. Whatever regular calls
an encoder was given, it carries them out. When its payload is not too long for the offset in it, the
stream is laid out with the container's number of each name that was given for a reference, and the
payload is linked exactly when the one with that stream is not too long either. The linked payload has
no names, and its instructions say what the stream says, apart from these numbers. -/
theorem relinkEntity_resolves_names (order : ByteOrder) (header : EntityHeader) (assets : NameIndex)
    (calls : List EncoderCall) (hcalls : ∀ call ∈ calls, call.IsRegular)
    (hnames : ∀ name ∈ EncoderCall.mediaNames calls,
      name ≠ "" ∧ '\x00' ∉ name.toList ∧ name ∈ assets.names) :
    ∃ encoder, (Encoder.start order).perform calls = .ok encoder ∧
      (EntityPayload.tableOffset header encoder.finish.bytes < 2 ^ 32 →
        ∃ original numbers instructions, decodeStream order encoder.finish.bytes = .ok original ∧
          numbers.map some = (EncoderCall.mediaNames calls).map assets.number? ∧
          Renumbers 0 original numbers instructions ∧
          (2 ^ 32 ≤ EntityPayload.tableOffset header (streamBytes instructions) →
            relinkEntity order assets
              (EntityPayload.encode order header encoder.finish.bytes encoder.finish.names) =
                .error .payloadTooLong) ∧
          (EntityPayload.tableOffset header (streamBytes instructions) < 2 ^ 32 →
            ∃ linked payload,
              relinkEntity order assets
                (EntityPayload.encode order header encoder.finish.bytes encoder.finish.names) =
                  .ok linked ∧
              EntityPayload.decode order linked = .ok payload ∧
              payload.header = header ∧ payload.names = [] ∧
              payload.nameTableOffset.toNat = linked.length ∧
              payload.instructions order = .ok instructions ∧
              instructions.map (·.skeleton) = original.map (·.skeleton) ∧
              assetOperands instructions =
                (EncoderCall.mediaNames calls).map assets.number?)) := by
  obtain ⟨encoder, written, hperform, happends⟩ :=
    Encoder.appends_perform (Encoder.start order) hcalls
  refine ⟨encoder, hperform, fun hfits => ?_⟩
  obtain ⟨payload, original, hpayload, rfl, horiginal, hstream, hmedia, hnumbers⟩ :=
    hasMedia_of_appends happends hfits hnames
  have hlink := relinkEntity_of_hasMedia hpayload hstream hmedia
  have hrenumbers := hmedia.renumbers hstream
  refine ⟨original, _, _, horiginal, hnumbers, hrenumbers, fun hlong => ?_, fun hlength => ?_⟩
  · rw [hlink]
    exact EntityPayload.build_eq_error.mpr ⟨hlong, rfl⟩
  · obtain ⟨linked, hlinked, hheader, htable, hoffset, hinstructions⟩ :=
      decode_linked (hmedia.decodeStream_eq hstream) (.inl rfl) hlength
    rw [List.append_nil] at hlinked
    refine ⟨_, linked, hlink.trans (EntityPayload.build_eq_ok.mpr ⟨hlength, rfl⟩), hlinked, hheader,
      htable, hoffset, hinstructions, (hmedia.tells hstream).1, ?_⟩
    rw [hrenumbers.assetOperands_eq, hnumbers]

/-- A name that is mentioned twice, around a value whose bytes look like a reference. -/
theorem relinkEntity_resolves_repeated_name :
    ∃ encoder original linked payload instructions,
      (Encoder.start .big).perform
        [.mediaRef 7 (.pending "b"), .property 2 [0x8d, 0x00], .mediaRef 3 (.pending "a"),
          .mediaRef 3 (.pending "b")] = .ok encoder ∧
      decodeStream .big encoder.finish.bytes = .ok original ∧
      relinkEntity .big (.ofList ["a", "b"])
        (EntityPayload.encode .big ⟨1, 2⟩ encoder.finish.bytes encoder.finish.names) = .ok linked ∧
      EntityPayload.decode .big linked = .ok payload ∧
      payload.header = ⟨1, 2⟩ ∧ payload.names = [] ∧
      payload.nameTableOffset.toNat = linked.length ∧
      payload.instructions .big = .ok instructions ∧
      instructions.map (·.skeleton) = original.map (·.skeleton) ∧
      assetOperands instructions = [some 1, some 0, some 1] := by
  obtain ⟨encoder, hperform, h⟩ :=
    relinkEntity_resolves_names .big ⟨1, 2⟩ (.ofList ["a", "b"])
      [.mediaRef 7 (.pending "b"), .property 2 [0x8d, 0x00], .mediaRef 3 (.pending "a"),
        .mediaRef 3 (.pending "b")]
      (by simp [EncoderCall.IsRegular]) (by decide)
  cases hperform
  obtain ⟨original, numbers, instructions, horiginal, -, -, hlong, hresult⟩ := h (by decide)
  -- The linked payload is as short as its parts say.
  have hshort : EntityPayload.tableOffset ⟨1, 2⟩ (streamBytes instructions) < 2 ^ 32 := by
    by_contra hshort
    have hfault := congrArg Except.toOption (hlong (Nat.not_lt.mp hshort))
    revert hfault
    decide +kernel
  obtain ⟨linked, payload, hlinked, hresult⟩ := hresult hshort
  exact ⟨_, original, linked, payload, instructions, rfl, horiginal, hlinked, hresult⟩

/-- References to one medium, and nothing else. -/
def references (count : Nat) : List EncoderCall :=
  List.replicate count (.mediaRef 0 (.pending "a"))

/-- References are regular calls. -/
theorem isRegular_of_mem_references {count : Nat} :
    ∀ call ∈ references count, call.IsRegular := by
  intro call hcall
  rw [List.eq_of_mem_replicate hcall]
  exact ⟨"a", rfl⟩

/-- Each names the medium. -/
theorem mediaNames_references (count : Nat) :
    EncoderCall.mediaNames (references count) = List.replicate count "a" :=
  List.filterMap_replicate_of_some rfl

/-- A container has the medium, after another. -/
theorem mem_names_of_mem_references {count : Nat} :
    ∀ name ∈ EncoderCall.mediaNames (references count),
      name ≠ "" ∧ '\x00' ∉ name.toList ∧ name ∈ (NameIndex.ofList ["b", "a"]).names := by
  intro name hname
  rw [mediaNames_references] at hname
  rw [List.eq_of_mem_replicate hname]
  decide

namespace Encoder

/-- When the offset is set and the medium has the number zero, each reference takes one byte. -/
theorem perform_references (count : Nat) {encoder : Encoder}
    (hoffset : encoder.registers.offset = some 0) (hnames : encoder.names = .ofList ["a"]) :
    encoder.perform (references count) =
      .ok { encoder with
        bytes := encoder.bytes ++ List.replicate count Opcode.copyMediaRef.toByte } := by
  obtain ⟨order, bytes, registers, names⟩ := encoder
  obtain rfl : names = .ofList ["a"] := hnames
  have hcall (bytes : Bytes) :
      (⟨order, bytes, registers, .ofList ["a"]⟩ : Encoder).call (.mediaRef 0 (.pending "a")) =
        .ok (⟨order, bytes ++ [Opcode.copyMediaRef.toByte], registers, .ofList ["a"]⟩, some 0) := by
    simp only [call, mediaRef, setOffset, if_pos hoffset]
    rfl
  clear hoffset
  induction count generalizing bytes with
  | zero =>
      rw [List.replicate_zero, List.append_nil]
      rfl
  | succ count ih =>
      rw [references, List.replicate_succ, perform, hcall]
      refine (ih _).trans ?_
      rw [List.append_assoc, List.singleton_append, ← List.replicate_succ]

end Encoder

/-- In a container where the medium has the number one each reference takes a byte more than in the entity,
where it has the number zero. -/
theorem exists_hasMedia_references {count : Nat} (hpositive : 0 < count)
    (hcount : count + 10 < 2 ^ 32) :
    ∃ encoder payload original,
      (Encoder.start .big).perform (references count) = .ok encoder ∧
      EntityPayload.tableOffset ⟨0, 0⟩ encoder.finish.bytes < 2 ^ 32 ∧
      EntityPayload.decode .big
        (EntityPayload.encode .big ⟨0, 0⟩ encoder.finish.bytes encoder.finish.names) =
          .ok payload ∧
      payload.instructions .big = .ok original ∧
      payload.HasMedia (.ofList ["b", "a"]) original ∧
      count * 2 ≤ EntityPayload.tableOffset payload.header
        (streamBytes (payload.linkedInstructions (.ofList ["b", "a"]) original)) := by
  obtain ⟨others, rfl⟩ := Nat.exists_eq_add_of_lt hpositive
  rw [Nat.zero_add] at hcount ⊢
  obtain ⟨encoder, written, hperform, happends⟩ :=
    Encoder.appends_perform (Encoder.start .big) isRegular_of_mem_references
  have hfits : EntityPayload.tableOffset ⟨0, 0⟩ encoder.finish.bytes < 2 ^ 32 := by
    -- The first reference sets the offset as well.
    let first : Encoder :=
      ⟨.big, [Opcode.setOffset.toByte, Opcode.copyMediaRef.toByte], ⟨some 0, none⟩, .ofList ["a"]⟩
    have hcall : (Encoder.start .big).call (.mediaRef 0 (.pending "a")) = .ok (first, some 0) := by
      decide
    rw [references, List.replicate_succ, Encoder.perform, hcall] at hperform
    cases hperform.symm.trans (Encoder.perform_references others rfl rfl)
    simp only [EntityPayload.tableOffset, EntityPayload.fixedLength, Encoder.finish, Encoder.emit,
      List.length_append, List.length_cons, List.length_nil, List.length_replicate, first]
    have hzero : (IndexCode.encode 0).length = 0 := by decide
    omega
  obtain ⟨payload, original, hpayload, -, -, hstream, hmedia, hnumbers⟩ :=
    @hasMedia_of_appends .big ⟨0, 0⟩ (.ofList ["b", "a"]) _ _ _ happends hfits
      mem_names_of_mem_references
  have hlinked : payload.linkedNumbers (.ofList ["b", "a"]) original =
      List.replicate (others + 1) 1 := by
    have hnumber : (NameIndex.ofList ["b", "a"]).number? "a" = some 1 := by decide
    rw [mediaNames_references, List.map_replicate, hnumber, ← List.map_replicate] at hnumbers
    exact (List.map_inj_right fun _ _ => Option.some.inj).mp hnumbers
  have hdigits : ∀ number ∈ payload.linkedNumbers (.ofList ["b", "a"]) original,
      1 ≤ (IndexCode.encode number).length := by
    intro number hnumber
    rw [hlinked] at hnumber
    rw [List.eq_of_mem_replicate hnumber]
    decide
  have hlength := (hmedia.renumbers hstream).length_le_of_digits hdigits
  rw [hlinked, List.length_replicate] at hlength
  exact ⟨encoder, payload, original, hperform, hfits, hpayload, hstream, hmedia,
    Nat.le_trans hlength (Nat.le_add_left ..)⟩

/-- References that are regular and all of whose names the container has: their payload is built, but it
is too long when it is linked. -/
theorem not_linked_references :
    ∃ encoder bytes,
      (∀ call ∈ references (2 ^ 31), call.IsRegular) ∧
      (∀ name ∈ EncoderCall.mediaNames (references (2 ^ 31)),
        name ≠ "" ∧ '\x00' ∉ name.toList ∧ name ∈ (NameIndex.ofList ["b", "a"]).names) ∧
      (Encoder.start .big).perform (references (2 ^ 31)) = .ok encoder ∧
      EntityPayload.build RelinkFault.payloadTooLong .big ⟨0, 0⟩ encoder.finish.bytes
        encoder.finish.names = .ok bytes ∧
      relinkEntity .big (.ofList ["b", "a"]) bytes = .error .payloadTooLong := by
  have hlong : 2 ^ 32 ≤ 2 ^ 31 * 2 := by decide
  obtain ⟨encoder, payload, original, hperform, hfits, hpayload, hstream, hmedia, hlength⟩ :=
    @exists_hasMedia_references (2 ^ 31) (by decide) (by decide)
  generalize 2 ^ 31 = count at *
  refine ⟨encoder, _, isRegular_of_mem_references, mem_names_of_mem_references, hperform,
    EntityPayload.build_eq_ok.mpr ⟨hfits, rfl⟩, ?_⟩
  rw [relinkEntity_of_hasMedia hpayload hstream hmedia]
  exact EntityPayload.build_eq_error.mpr ⟨Nat.le_trans hlong hlength, rfl⟩

end StageArchive
