import StageArchive.Proofs.Entity.Refusal
/-!
# Linking what has been linked

A linked payload has no names, and its numbers are those of the container's media. Where the names of
all these media are given back to it, each of its numbers stands for itself, and linking it again
changes nothing. `relinkEntity_idempotent` says this of any payload that was linked, and what becomes of
the linked payload as it is: its numbers cannot be resolved, so it is kept only when it has none.
-/

namespace StageArchive

section Layout

variable {order : ByteOrder} {registers : Registers} {position : Nat}
  {instructions linked : List Instruction} {numbers : List UInt32}

namespace Renumbers

/-- Instructions that were laid out refer to media by the numbers given, in order. -/
theorem assetNumbers_eq (h : Renumbers position instructions numbers linked) :
    assetNumbers linked = numbers := by
  induction h with
  | nil => rfl
  | asset hasset hrest ih => exact congrArg (_ :: ·) ih
  | other hasset hrest ih =>
      exact (List.filterMap_cons_none (Instruction.assetNumber?_of_ne hasset)).trans ih

/-- To lay instructions out again with the same numbers changes nothing. -/
theorem renumber_eq (h : Renumbers position instructions numbers linked) :
    renumber position linked numbers = linked := by
  induction h with
  | nil => rfl
  | asset hasset hrest ih => exact (renumber_of_asset rfl ..).trans (congrArg (_ :: ·) ih)
  | other hasset hrest ih => exact (renumber_of_ne hasset ..).trans (congrArg (_ :: ·) ih)

end Renumbers

/-- The first reference to a medium has the first number. -/
theorem find?_eq_head?_assetNumbers (h : Spelled order registers position instructions) :
    (instructions.find? (·.opcode = .copyMediaRef)).map (·.index?) =
      (assetNumbers instructions).head?.map some := by
  rw [← List.head?_map, ← assetOperands_eq_map h, assetOperands, List.head?_map, List.head?_filter]

end Layout

/-- The number of a name is the number of some place. -/
theorem NameIndex.toNat_lt_size {index : NameIndex} {name : String} {number : UInt32}
    (h : index.number? name = some number) : number.toNat < index.size := by
  obtain ⟨place, hplace, rfl⟩ := NameIndex.number?_eq_some.mp h
  rw [UInt32.toNat_ofNat']
  exact Nat.lt_of_le_of_lt (Nat.mod_le ..) (List.getElem?_eq_some_iff.mp hplace).1

/-- Where the names are those of the media, a medium's number stands for itself. -/
theorem resolveLocal_names {assets : NameIndex} {number : UInt32} (h : number.toNat < assets.size) :
    resolveLocal assets.names assets number = .ok number := by
  have hname : assets.names[number.toNat]? = some _ := List.getElem?_eq_getElem h
  have hnumber := NameIndex.number?_eq_some.mpr ⟨_, hname, UInt32.ofNat_toNat.symm⟩
  simp only [resolveLocal, hname, AssetRef.resolve, hnumber]

variable {order : ByteOrder} {assets : NameIndex} {bytes linked : Bytes}

/-- A payload that is linked is laid out with numbers of media, and all else in it stays. -/
theorem renumbers_of_relinkEntity (h : relinkEntity order assets bytes = .ok linked) :
    ∃ header original numbers instructions, Renumbers 0 original numbers instructions ∧
      decodeStream order (streamBytes instructions) = .ok instructions ∧
      EntityPayload.tableOffset header (streamBytes instructions) < 2 ^ 32 ∧
      linked = EntityPayload.encode order header (streamBytes instructions) [] ∧
      ∀ number ∈ numbers, number.toNat < assets.size := by
  obtain ⟨payload, original, hpayload, hstream⟩ := exists_decoded_of_relinkEntity h
  obtain ⟨hmedia, hfits, rfl⟩ := (relinkEntity_eq_ok_iff hpayload hstream).mp h
  refine ⟨payload.header, original, payload.linkedNumbers assets original, _,
    hmedia.renumbers hstream, hmedia.decodeStream_eq hstream, hfits, rfl, fun number hnumber => ?_⟩
  obtain ⟨before, -, hbefore⟩ := List.mem_filterMap.mp hnumber
  obtain ⟨name, -, hname⟩ := Option.bind_eq_some_iff.mp hbefore
  exact NameIndex.toNat_lt_size hname

/-- Linking a payload that was linked changes nothing, once it is given the names of all media of the
container; their numbers are the container's already. Without names the linked payload stays as it is
when it refers to no medium, and is refused for the first number in it otherwise, whatever media there
are. -/
theorem relinkEntity_idempotent (h : relinkEntity order assets bytes = .ok linked)
    (hzero : ∀ name ∈ assets.names, '\x00' ∉ name.toList)
    (hlast : assets.names.getLast? ≠ some "") :
    ∃ payload instructions, EntityPayload.decode order linked = .ok payload ∧
      payload.instructions order = .ok instructions ∧
      relinkEntity order assets
        (EntityPayload.encode order payload.header payload.stream assets.names) = .ok linked ∧
      ∀ others,
        (instructions.find? (·.opcode = .copyMediaRef) = none →
          relinkEntity order others linked = .ok linked) ∧
        ∀ instruction, instructions.find? (·.opcode = .copyMediaRef) = some instruction →
          ∃ number, instruction.index? = some number ∧
            relinkEntity order others linked = .error (.localOutOfRange number 0) := by
  obtain ⟨header, original, numbers, instructions, hrenumbers, hstream, hfits, rfl, hnumbers⟩ :=
    renumbers_of_relinkEntity h
  obtain ⟨hspelled, -, -⟩ := decodeStream_eq_ok_iff.mp hstream
  have hassets := hrenumbers.assetNumbers_eq
  have hfirst := find?_eq_head?_assetNumbers hspelled
  have hend := endIndex_of_decodeStream hstream
  have hbuild : EntityPayload.build RelinkFault.payloadTooLong order header
      (streamBytes (renumber 0 instructions numbers)) [] =
        .ok (EntityPayload.encode order header (streamBytes instructions) []) := by
    rw [hrenumbers.renumber_eq]
    exact EntityPayload.build_eq_ok.mpr ⟨hfits, rfl⟩
  -- Linking leaves the name table empty; with the shared names put back the payload is local again.
  have hlinked := @EntityPayload.decode_encode order _ _ [] [] hfits hend
    (NameTable.decode_of_empty _ (.inl rfl))
  have hnamed := @EntityPayload.decode_encode order _ _ assets.names _ hfits hend
    (NameTable.decode_encode _ hzero hlast)
  refine ⟨_, instructions, hlinked, hstream, ?_, fun others => ⟨fun hnone => ?_, ?_⟩⟩
  · rw [relinkEntity_eq hnamed hstream, hassets,
      mapM_eq_ok_self fun number hnumber => resolveLocal_names (hnumbers number hnumber)]
    exact hbuild
  · rw [hnone, hassets] at hfirst
    obtain rfl : numbers = [] := List.head?_eq_none_iff.mp (Option.map_eq_none_iff.mp hfirst.symm)
    rw [relinkEntity_eq hlinked hstream, hassets]
    exact hbuild
  · intro instruction hsome
    rw [hsome, hassets] at hfirst
    obtain ⟨number, hnumber, hindex⟩ := Option.map_eq_some_iff.mp hfirst.symm
    obtain ⟨rest, rfl⟩ := List.head?_eq_some_iff.mp hnumber
    refine ⟨number, hindex.symm, (relinkEntity_eq_error_of_ne hlinked hstream (by nofun)).mpr ?_⟩
    rw [hassets]
    exact .here (.outOfRange (Nat.zero_le _))

/-- An operand of two zero digits for the only name, and padding behind the stream and the names. -/
theorem relinkEntity_idempotent_padded_payload :
    relinkEntity .big (.ofList ["a", "b"])
        (EntityPayload.encode .big ⟨7, 300⟩ [0x8d, 0, 0, 0x80, 0] ["b"] ++ [0]) =
      .ok (EntityPayload.encode .big ⟨7, 300⟩ [0x8d, 1, 0x80] []) ∧
    ∃ payload instructions,
      EntityPayload.decode .big (EntityPayload.encode .big ⟨7, 300⟩ [0x8d, 1, 0x80] []) =
        .ok payload ∧
      payload.instructions .big = .ok instructions ∧
      relinkEntity .big (.ofList ["a", "b"])
        (EntityPayload.encode .big payload.header payload.stream ["a", "b"]) =
          .ok (EntityPayload.encode .big ⟨7, 300⟩ [0x8d, 1, 0x80] []) := by
  have hpayload := @EntityPayload.decode_append .big ⟨7, 300⟩ [0x8d, 0, 0, 0x80, 0] _ _ (by decide)
    (IndexCode.endIndex_cons rfl) (@NameTable.decode_encode_append _ ["b"] [0] (by decide) (.inr rfl)
      nofun)
  have hstream : decodeStream .big [0x8d, 0, 0, 0x80, 0] = .ok
      [⟨0, .copyMediaRef, some ⟨.asset, .index 0, 2⟩, [0x8d, 0, 0]⟩, ⟨3, .finish, none, [0x80]⟩] := by
    have hoverlong : IndexCode.Spells 0 [0, 0] := by decide
    exact decodeStream_eq_ok_iff.mpr ⟨⟨rfl, ⟨rfl, _, rfl, rfl, hoverlong⟩, rfl, rfl, trivial⟩,
      by simp [isFinished_cons], [0], .inr rfl, rfl⟩
  have h : relinkEntity .big (.ofList ["a", "b"])
        (EntityPayload.encode .big ⟨7, 300⟩ [0x8d, 0, 0, 0x80, 0] ["b"] ++ [0]) =
      .ok (EntityPayload.encode .big ⟨7, 300⟩ [0x8d, 1, 0x80] []) :=
    (relinkEntity_eq hpayload hstream).trans rfl
  obtain ⟨payload, instructions, hlinked, hinstructions, hagain, -⟩ :=
    relinkEntity_idempotent h (by decide)
      (by decide : ["a", "b"].getLast? ≠ some "")
  exact ⟨h, payload, instructions, hlinked, hinstructions, hagain⟩

end StageArchive
