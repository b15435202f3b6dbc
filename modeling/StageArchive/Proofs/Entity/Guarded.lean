import StageArchive.Entity.Payload
import StageArchive.Proofs.Instruction.Guarded
/-!
# Taking payloads apart by places

Payloads and name tables are taken apart by the places of their parts, and whether a part is there is
looked at first. `entityPayload_eq` and `setPayload_eq` say that every part is there, whatever the
payload declares, and what the parts are.
-/

namespace StageArchive.Guarded

/-- The names from a place of a table on, which lies at an offset. -/
def namesFrom (table : Bytes) (offset place : Nat) : Guarded StreamFault (List String) :=
  if place < table.length then do
    let rest ← sliceFrom table place
    if rest = [0] then pure []
    else
      match rest.idxOf? 0 with
      | none => throw (.unterminatedName (offset + place))
      | some length => do
        let name ← slice rest 0 length
        match Text.ofUtf8? name with
        | none => throw (.invalidName (offset + place))
        | some text => do
          let names ← namesFrom table offset (place + length + 1)
          pure (text :: names)
  else pure []
termination_by table.length - place

/-- Takes the payload of a group or scene apart. -/
def entityPayload (order : ByteOrder) (bytes : Bytes) : Guarded StreamFault EntityPayload :=
  match order.word? bytes 0, order.word? bytes 4 with
  | some tableOffset, some classIndex =>
    if tableOffset.toNat < EntityPayload.fixedLength ∨ bytes.length < tableOffset.toNat then
      throw (.badNameTableOffset tableOffset bytes.length)
    else do
      let middle ← slice bytes EntityPayload.fixedLength tableOffset.toNat
      match IndexCode.decode middle with
      | .error _ => throw (.indexOverflow EntityPayload.fixedLength)
      | .ok (count, length) => do
        let streamOffset := EntityPayload.fixedLength + length
        let stream ← slice bytes streamOffset tableOffset.toNat
        let table ← sliceFrom bytes tableOffset.toNat
        let names ← namesFrom table tableOffset.toNat 0
        pure ⟨⟨classIndex, count⟩, tableOffset, streamOffset, stream, names⟩
  | _, _ => throw (.payloadTooShort bytes.length)

/-- Takes the payload of a set apart. -/
def setPayload (order : ByteOrder) (bytes : Bytes) : Guarded StreamFault SetPayload :=
  match order.word? bytes 0 with
  | none => throw (.payloadTooShort bytes.length)
  | some classIndex => do
    let stream ← sliceFrom bytes 4
    pure ⟨classIndex, stream⟩

/-- A name ends at the first zero byte. -/
theorem splitName_eq (bytes : Bytes) :
    NameTable.splitName bytes =
      (bytes.idxOf? 0).map fun length => (bytes.take length, bytes.drop (length + 1)) := by
  induction bytes with
  | nil => rfl
  | cons byte bytes ih =>
      rw [NameTable.splitName, List.idxOf?_cons]
      by_cases hzero : byte = 0
      · rw [if_pos hzero, if_pos (beq_iff_eq.mpr hzero)]
        rfl
      · rw [if_neg hzero, if_neg (mt beq_iff_eq.mp hzero), ih, Option.map_map, Option.map_map]
        rfl

/-- A name that ends lies before its end. -/
theorem lt_of_idxOf? {bytes : Bytes} {length : Nat} (h : bytes.idxOf? 0 = some length) :
    length < bytes.length :=
  (List.idxOf?_eq_some_iff.mp h).1

/-- A table that is more than padding is decoded name by name, each up to the first zero byte. -/
theorem decode_of_more {bytes : Bytes} (offset : Nat) (hmore : ¬ (bytes = [] ∨ bytes = [0])) :
    NameTable.decode offset bytes =
      match bytes.idxOf? 0 with
      | none => .error (.unterminatedName offset)
      | some length =>
        match Text.ofUtf8? (bytes.take length) with
        | none => .error (.invalidName offset)
        | some text =>
          (NameTable.decode (offset + length + 1) (bytes.drop (length + 1))).map (text :: ·) := by
  have hsplit := splitName_eq bytes
  rw [NameTable.decode, if_neg hmore]
  split
  · rename_i hnone
    rw [hnone] at hsplit
    rw [Option.map_eq_none_iff.mp hsplit.symm]
  · rename_i name rest hsome
    rw [hsome] at hsplit
    obtain ⟨length, hlength, heq⟩ := Option.map_eq_some_iff.mp hsplit.symm
    cases heq
    have hcount := List.length_take_of_le (Nat.le_of_lt (lt_of_idxOf? hlength))
    dsimp only
    rw [hlength]
    generalize (bytes.take length).length = count at hcount
    subst hcount
    rfl

/-- Names are read by places as the table is decoded, and never outside of it. -/
theorem namesFrom_eq {table : Bytes} (offset : Nat) {place : Nat} (h : place ≤ table.length) :
    namesFrom table offset place =
      settled (NameTable.decode (offset + place) (table.drop place)) := by
  -- Every name takes the zero byte at its end, so that less is left behind it.
  induction hleft : table.length - place using Nat.strongRecOn generalizing place with
  | ind left ih =>
    rw [namesFrom]
    by_cases hplace : place < table.length
    · have hmore : table.drop place ≠ [] := by
        rw [Ne, List.drop_eq_nil_iff]
        omega
      rw [if_pos hplace, sliceFrom_eq h, settled_ok_bind]
      by_cases hpad : table.drop place = [0]
      · rw [if_pos hpad, NameTable.decode, if_pos (.inr hpad)]
        rfl
      · rw [if_neg hpad, decode_of_more _ (not_or.mpr ⟨hmore, hpad⟩)]
        cases hzero : (table.drop place).idxOf? 0 with
        | none => rfl
        | some length =>
            have hlength := lt_of_idxOf? hzero
            dsimp only
            rw [slice_eq (Nat.zero_le _) (Nat.le_of_lt hlength), settled_ok_bind, List.drop_zero,
              Nat.sub_zero]
            cases Text.ofUtf8? ((table.drop place).take length) with
            | none => rfl
            | some text =>
                rw [List.length_drop] at hlength
                have hothers : namesFrom table offset (place + length + 1) =
                    settled (NameTable.decode (offset + place + length + 1)
                      ((table.drop place).drop (length + 1))) := by
                  rw [List.drop_drop, Nat.add_assoc offset, Nat.add_assoc offset]
                  exact ih _ (by omega) (by omega) rfl
                dsimp only
                rw [hothers]
                cases NameTable.decode (offset + place + length + 1)
                  ((table.drop place).drop (length + 1)) <;> rfl
    · have hnone : table.drop place = [] := List.drop_eq_nil_of_le (Nat.le_of_not_lt hplace)
      rw [if_neg hplace, NameTable.decode, if_pos (.inl hnone)]
      rfl

/-- An index that is decoded lies in the bytes. -/
theorem length_le_of_decode {bytes : Bytes} {value : UInt32} {length : Nat}
    (h : IndexCode.decode bytes = .ok (value, length)) : length ≤ bytes.length := by
  obtain ⟨digits, rest, rfl, -, -, rfl⟩ := IndexCode.decode_eq_ok_iff.mp h
  rw [List.length_append]
  exact Nat.le_add_right ..

/-- The payload of a group or scene is taken apart by places as it is decoded, and never outside of it. -/
theorem entityPayload_eq (order : ByteOrder) (bytes : Bytes) :
    entityPayload order bytes = settled (EntityPayload.decode order bytes) := by
  unfold entityPayload EntityPayload.decode
  cases order.word? bytes 0 with
  | none => rfl
  | some tableOffset =>
      cases order.word? bytes 4 with
      | none => rfl
      | some classIndex =>
          dsimp only
          by_cases hoffset : tableOffset.toNat < EntityPayload.fixedLength ∨
              bytes.length < tableOffset.toNat
          · rw [if_pos hoffset, if_pos hoffset]
            rfl
          · obtain ⟨hfixed, hlength⟩ := not_or.mp hoffset
            have hfixed := Nat.le_of_not_lt hfixed
            have hlength := Nat.le_of_not_lt hlength
            have hmiddle : (bytes.drop EntityPayload.fixedLength).take
                (tableOffset.toNat - EntityPayload.fixedLength) =
                  (bytes.take tableOffset.toNat).drop EntityPayload.fixedLength :=
              List.drop_take.symm
            rw [if_neg hoffset, if_neg hoffset, slice_eq hfixed hlength, settled_ok_bind, hmiddle]
            cases hindex : IndexCode.decode
              ((bytes.take tableOffset.toNat).drop EntityPayload.fixedLength) with
            | error fault => rfl
            | ok found =>
                obtain ⟨count, length⟩ := found
                -- The index code ends inside the middle part, so the slices behind it are in range.
                have hcount := length_le_of_decode hindex
                rw [List.length_drop, List.length_take_of_le hlength] at hcount
                have hstream : (bytes.drop (EntityPayload.fixedLength + length)).take
                    (tableOffset.toNat - (EntityPayload.fixedLength + length)) =
                      ((bytes.take tableOffset.toNat).drop EntityPayload.fixedLength).drop length := by
                  rw [List.drop_drop, List.drop_take]
                dsimp only
                rw [slice_eq (by omega) hlength, settled_ok_bind, sliceFrom_eq hlength,
                  settled_ok_bind, namesFrom_eq tableOffset.toNat (Nat.zero_le _), List.drop_zero,
                  Nat.add_zero, hstream]
                cases NameTable.decode tableOffset.toNat (bytes.drop tableOffset.toNat) <;> rfl

/-- The payload of a set is taken apart by places as it is decoded, and never outside of it. -/
theorem setPayload_eq (order : ByteOrder) (bytes : Bytes) :
    setPayload order bytes = settled (SetPayload.decode order bytes) := by
  unfold setPayload SetPayload.decode
  cases hword : order.word? bytes 0 with
  | none => rfl
  | some classIndex =>
      have hlength := congrArg List.length (ByteOrder.eq_encode_of_word? hword)
      rw [List.length_append, ByteOrder.length_encode, List.drop_zero] at hlength
      dsimp only
      rw [sliceFrom_eq (by omega)]
      rfl

end StageArchive.Guarded
