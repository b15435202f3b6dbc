import StageArchive.Proofs.Entity.Relinking
/-!
# Why an entity is not linked

An entity is decoded as a whole before any of its numbers is resolved, so a payload or stream that does
not decode is refused as such, whatever media there are. `Undecodable` says which fault that is. The
numbers of an entity that decodes are resolved in order, and `Unresolved` says why one cannot be; the
entity is refused for the first of them. One whose numbers are all resolved is refused only when the
linked payload is too long for the offset in it.
-/

namespace StageArchive

/-- Why a payload does not decode: it cannot be taken apart, or its stream cannot be read. -/
inductive EntityPayload.Undecodable (order : ByteOrder) (bytes : Bytes) (fault : StreamFault) : Prop
  | payload (h : EntityPayload.decode order bytes = .error fault)
  | stream {payload : EntityPayload} (hpayload : EntityPayload.decode order bytes = .ok payload)
      (h : payload.instructions order = .error fault)

/-- A payload decodes, and the first of its numbers that cannot be resolved is within its name table. -/
def EntityPayload.LacksMedium (order : ByteOrder) (assets : NameIndex) (bytes : Bytes) : Prop :=
  ∃ payload original before number after name,
    EntityPayload.decode order bytes = .ok payload ∧
    payload.instructions order = .ok original ∧
    assetNumbers original = before ++ number :: after ∧
    (∀ other ∈ before, ∃ name ∈ assets.names, payload.mediumName? other = some name) ∧
    payload.mediumName? number = some name ∧ name ∉ assets.names

/-- Why a number of an entity cannot be resolved: the name table has no name for it, or there is no
medium of that name. -/
inductive Unresolved (names : List String) (assets : NameIndex) (number : UInt32) :
    RelinkFault → Prop
  | outOfRange (h : names.length ≤ number.toNat) :
      Unresolved names assets number (.localOutOfRange number names.length)
  | missing {name : String} (hname : names[number.toNat]? = some name)
      (hassets : name ∉ assets.names) : Unresolved names assets number (.unresolvedAsset name)

variable {order : ByteOrder} {assets : NameIndex} {bytes : Bytes} {payload : EntityPayload}
  {original : List Instruction}

/-- Resolving a number fails as it should. -/
theorem resolveLocal_eq_error {names : List String} {number : UInt32} {fault : RelinkFault} :
    resolveLocal names assets number = .error fault ↔ Unresolved names assets number fault := by
  unfold resolveLocal
  cases hname : names[number.toNat]? with
  | none =>
      constructor
      · intro h
        cases h
        exact .outOfRange (List.getElem?_eq_none_iff.mp hname)
      · intro h
        cases h with
        | outOfRange => rfl
        | missing hother => cases hname.symm.trans hother
  | some name =>
      have hlength := (List.getElem?_eq_some_iff.mp hname).1
      simp only [AssetRef.resolve]
      cases hnumber : assets.number? name with
      | none =>
          have hassets : name ∉ assets.names := by
            intro hmem
            cases hnumber.symm.trans (NameIndex.number?_of_mem hmem)
          constructor
          · intro h
            cases h
            exact .missing hname hassets
          · intro h
            cases h with
            | outOfRange h => omega
            | missing hother =>
                cases hname.symm.trans hother
                rfl
      | some resolved =>
          constructor
          · intro h
            cases h
          · intro h
            cases h with
            | outOfRange h => omega
            | missing hother hassets =>
                cases hname.symm.trans hother
                have hthere := assets.isSome_number? name
                rw [hnumber] at hthere
                exact absurd (List.contains_iff_mem.mp hthere.symm) hassets

/-- A number that is not unresolved has a name, and there is a medium of this name. -/
theorem forall_not_unresolved_iff {number : UInt32} :
    (∀ fault, ¬ Unresolved payload.names assets number fault) ↔
      ∃ name ∈ assets.names, payload.mediumName? number = some name := by
  constructor
  · intro h
    cases hname : payload.names[number.toNat]? with
    | none => exact absurd (.outOfRange (List.getElem?_eq_none_iff.mp hname)) (h _)
    | some name =>
        by_cases hassets : name ∈ assets.names
        · exact ⟨name, hassets, hname⟩
        · exact absurd (.missing hname hassets) (h _)
  · rintro ⟨name, hassets, hname⟩ fault h
    have hname : payload.names[number.toNat]? = some name := hname
    cases h with
    | outOfRange h => exact absurd (List.getElem?_eq_some_iff.mp hname).1 (Nat.not_lt.mpr h)
    | missing hother hnone =>
        cases hname.symm.trans hother
        exact hnone hassets

/-- An entity that decodes is refused for the first of its numbers that cannot be resolved, or for the
length of its linked payload when there is none. -/
theorem relinkEntity_eq_error (hpayload : EntityPayload.decode order bytes = .ok payload)
    (hstream : payload.instructions order = .ok original) {fault : RelinkFault} :
    relinkEntity order assets bytes = .error fault ↔
      FirstFault (Unresolved payload.names assets) (assetNumbers original) fault ∨
      payload.HasMedia assets original ∧
        2 ^ 32 ≤ EntityPayload.tableOffset payload.header
          (streamBytes (payload.linkedInstructions assets original)) ∧
        fault = .payloadTooLong := by
  have hresolve := @mapM_eq_error _ _ _ (resolveLocal payload.names assets)
    (assetNumbers original) fault
  simp only [resolveLocal_eq_error] at hresolve
  rw [relinkEntity_eq hpayload hstream, bind_eq_error, hresolve]
  refine or_congr_right ?_
  constructor
  · rintro ⟨numbers, hnumbers, hbuild⟩
    obtain ⟨hmedia, rfl⟩ := EntityPayload.mapM_resolveLocal_eq_ok.mp hnumbers
    exact ⟨hmedia, EntityPayload.build_eq_error.mp hbuild⟩
  · rintro ⟨hmedia, hbuild⟩
    exact ⟨_, EntityPayload.mapM_resolveLocal_eq_ok.mpr ⟨hmedia, rfl⟩,
      EntityPayload.build_eq_error.mpr hbuild⟩

/-- Of its faults only that of length is not one of a number. -/
theorem relinkEntity_eq_error_of_ne (hpayload : EntityPayload.decode order bytes = .ok payload)
    (hstream : payload.instructions order = .ok original) {fault : RelinkFault}
    (hfault : fault ≠ .payloadTooLong) :
    relinkEntity order assets bytes = .error fault ↔
      FirstFault (Unresolved payload.names assets) (assetNumbers original) fault := by
  rw [relinkEntity_eq_error hpayload hstream]
  exact or_iff_left fun h => hfault h.2.2

/-- The length of its linked payload counts only when all its numbers are resolved. -/
theorem relinkEntity_eq_error_payloadTooLong
    (hpayload : EntityPayload.decode order bytes = .ok payload)
    (hstream : payload.instructions order = .ok original) :
    relinkEntity order assets bytes = .error .payloadTooLong ↔
      payload.HasMedia assets original ∧
        2 ^ 32 ≤ EntityPayload.tableOffset payload.header
          (streamBytes (payload.linkedInstructions assets original)) := by
  rw [relinkEntity_eq_error hpayload hstream]
  constructor
  · rintro (hfirst | ⟨hmedia, hlong, -⟩)
    · obtain ⟨_, _, _, -, -, hfault⟩ := firstFault_iff.mp hfirst
      cases hfault
    · exact ⟨hmedia, hlong⟩
  · rintro ⟨hmedia, hlong⟩
    exact .inr ⟨hmedia, hlong, rfl⟩

/-- A payload decodes or does not. -/
theorem exists_decoded_or_undecodable (order : ByteOrder) (bytes : Bytes) :
    (∃ payload original, EntityPayload.decode order bytes = .ok payload ∧
      payload.instructions order = .ok original) ∨
        ∃ fault, EntityPayload.Undecodable order bytes fault := by
  cases hpayload : EntityPayload.decode order bytes with
  | error fault => exact .inr ⟨fault, .payload hpayload⟩
  | ok payload =>
      cases hstream : payload.instructions order with
      | error fault => exact .inr ⟨fault, .stream hpayload hstream⟩
      | ok original => exact .inl ⟨payload, original, rfl, hstream⟩

/-- What does not decode is refused for that, whatever media there are. -/
theorem relinkEntity_of_undecodable {fault : StreamFault}
    (h : EntityPayload.Undecodable order bytes fault) (assets : NameIndex) :
    relinkEntity order assets bytes = .error (.stream fault) := by
  cases h with
  | payload h => simp only [relinkEntity, h]
  | stream hpayload h =>
      have hstream : decodeStream order _ = .error fault := h
      simp only [relinkEntity, hpayload, relinkStream, hstream]
      rfl

/-- Nothing else is refused as undecodable. -/
theorem relinkEntity_eq_error_stream {fault : StreamFault} :
    relinkEntity order assets bytes = .error (.stream fault) ↔
      EntityPayload.Undecodable order bytes fault := by
  refine ⟨fun h => ?_, fun h => relinkEntity_of_undecodable h assets⟩
  rcases exists_decoded_or_undecodable order bytes with ⟨payload, original, hpayload, hstream⟩ | hnone
  · obtain ⟨_, _, _, -, -, hfault⟩ :=
      firstFault_iff.mp ((relinkEntity_eq_error_of_ne hpayload hstream (by nofun)).mp h)
    cases hfault
  · obtain ⟨other, hother⟩ := hnone
    cases (relinkEntity_of_undecodable hother assets).symm.trans h
    exact hother

/-- An entity may be left out exactly when it lacks a medium that it has a name for. -/
theorem exists_recoverable_iff :
    (∃ fault, relinkEntity order assets bytes = .error fault ∧ fault.isRecoverable = true) ↔
      EntityPayload.LacksMedium order assets bytes := by
  constructor
  · rintro ⟨fault, h, hrecoverable⟩
    rcases exists_decoded_or_undecodable order bytes with
      ⟨payload, original, hpayload, hstream⟩ | ⟨other, hother⟩
    · rcases (relinkEntity_eq_error hpayload hstream).mp h with hfirst | ⟨-, -, rfl⟩
      · obtain ⟨before, number, after, hnumbers, hbefore, hfault⟩ := firstFault_iff.mp hfirst
        cases hfault with
        | outOfRange => cases hrecoverable
        | missing hname hassets =>
            exact ⟨payload, original, before, number, after, _, hpayload, hstream, hnumbers,
              fun other hother => forall_not_unresolved_iff.mp (hbefore other hother), hname, hassets⟩
      · cases hrecoverable
    · cases (relinkEntity_of_undecodable hother assets).symm.trans h
      cases hrecoverable
  · rintro ⟨payload, original, before, number, after, name, hpayload, hstream, hnumbers, hbefore,
      hname, hassets⟩
    refine ⟨.unresolvedAsset name, (relinkEntity_eq_error_of_ne hpayload hstream (by nofun)).mpr ?_, rfl⟩
    exact firstFault_iff.mpr ⟨before, number, after, hnumbers,
      fun other hother => forall_not_unresolved_iff.mpr (hbefore other hother),
      .missing hname hassets⟩

end StageArchive
