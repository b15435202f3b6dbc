import StageArchive.Entity.Payload
import StageArchive.Proofs.Entity.NameTable
import StageArchive.Proofs.Instruction.Transcript
import StageArchive.Proofs.Outcome
/-!
# Payloads are taken apart as they were put together

The offset in front of a payload says where its stream ends, as long as the offset fits in a word.
The stream must begin with an opcode, since that is what ends the number of members before it.
`decode_encode_padding_iff` says what else it takes for a payload to give back its parts. For a stream
that an encoder wrote, the numbers in it stand for the names that the encoder was given, whenever the
name table gives the names back.
-/

namespace StageArchive

/-- A stream that can be decoded ends an index before it. -/
theorem endIndex_of_decodeStream {order : ByteOrder} {stream : Bytes}
    {instructions : List Instruction} (h : decodeStream order stream = .ok instructions) :
    IndexCode.EndIndex stream := by
  obtain ⟨hspelled, hfinished, pad, -, rfl⟩ := decodeStream_eq_ok_iff.mp h
  exact hfinished.endIndex hspelled pad

namespace EntityPayload

/-- The name of the medium that an entity has numbered. -/
def mediumName? (payload : EntityPayload) (number : UInt32) : Option String :=
  payload.names[number.toNat]?

section Building

variable {ε : Type} {tooLong : ε} {order : ByteOrder} {header : EntityHeader} {stream : Bytes}
  {names : List String}

/-- A payload is made of its parts when the offset in it fits in a word. -/
theorem build_eq_ok {bytes : Bytes} : build tooLong order header stream names = .ok bytes ↔
    tableOffset header stream < 2 ^ 32 ∧ bytes = encode order header stream names := by
  unfold build
  split
  · rename_i hfits
    exact ⟨fun h => ⟨hfits, (Except.ok.inj h).symm⟩, fun h => congrArg Except.ok h.2.symm⟩
  · rename_i hlong
    exact ⟨nofun, fun h => absurd h.1 hlong⟩

/-- It fails for nothing else. -/
theorem build_eq_error {fault : ε} : build tooLong order header stream names = .error fault ↔
    2 ^ 32 ≤ tableOffset header stream ∧ fault = tooLong := by
  unfold build
  split
  · rename_i hfits
    exact ⟨nofun, fun h => absurd hfits (Nat.not_lt.mpr h.1)⟩
  · rename_i hlong
    exact ⟨fun h => ⟨Nat.not_lt.mp hlong, (Except.error.inj h).symm⟩,
      fun h => congrArg Except.error h.2.symm⟩

end Building

/-- A name table follows what a payload without names consists of. -/
theorem encode_eq_append (order : ByteOrder) (header : EntityHeader) (stream : Bytes)
    (names : List String) :
    encode order header stream names = encode order header stream [] ++ NameTable.encode names := by
  simp [encode]

/-- A payload without names ends where its table would begin. -/
theorem length_encode_nil (order : ByteOrder) (header : EntityHeader) (stream : Bytes) :
    (encode order header stream []).length = tableOffset header stream := by
  simp only [encode, NameTable.encode_nil, tableOffset, fixedLength, List.length_append,
    ByteOrder.length_encode, List.length_nil, Nat.add_zero]

/-- The offset of the table parts what stands in front of it from the table, and the number of members
is read from the front of both the number and the stream. -/
theorem decode_append_eq {order : ByteOrder} {header : EntityHeader} {stream : Bytes} (table : Bytes)
    (hfits : tableOffset header stream < 2 ^ 32) :
    decode order (encode order header stream [] ++ table) =
      match IndexCode.decode (IndexCode.encode header.count ++ stream) with
      | .error _ => .error (.indexOverflow fixedLength)
      | .ok (count, length) =>
        (NameTable.decode (tableOffset header stream) table).map fun names =>
          ⟨⟨header.classIndex, count⟩, UInt32.ofNat (tableOffset header stream),
            fixedLength + length, (IndexCode.encode header.count ++ stream).drop length, names⟩ := by
  have hword : (UInt32.ofNat (tableOffset header stream)).toNat = tableOffset header stream :=
    UInt32.toNat_ofNat_of_lt' hfits
  have hlength := length_encode_nil order header stream
  have hoffset : order.word? (encode order header stream [] ++ table) 0 =
      some (UInt32.ofNat (tableOffset header stream)) := by
    simp only [encode, List.append_assoc, ByteOrder.word?_encode]
  have hclass : order.word? (encode order header stream [] ++ table) 4 =
      some header.classIndex := by
    have hread := order.word?_append (order.encode (UInt32.ofNat (tableOffset header stream)))
      header.classIndex (IndexCode.encode header.count ++ stream ++ table)
      (ByteOrder.length_encode _ _)
    simpa only [encode, NameTable.encode_nil, List.append_nil, List.append_assoc] using hread
  have hinside : ¬ (tableOffset header stream < fixedLength ∨
      (encode order header stream [] ++ table).length < tableOffset header stream) := by
    rw [List.length_append, hlength]
    simp only [tableOffset]
    omega
  have hmiddle : ((encode order header stream [] ++ table).take (tableOffset header stream)).drop
      fixedLength = IndexCode.encode header.count ++ stream := by
    rw [List.take_left' hlength, encode, NameTable.encode_nil, List.append_nil, List.append_assoc]
    exact List.drop_left' (by simp [fixedLength])
  simp only [decode, hoffset, hclass, hword, if_neg hinside, hmiddle, List.drop_left' hlength]
  rfl

/-- A payload with any table is taken apart into what it was made from and the names of the table. -/
theorem decode_append {order : ByteOrder} {header : EntityHeader} {stream table : Bytes}
    {names : List String} (hfits : tableOffset header stream < 2 ^ 32)
    (hstream : IndexCode.EndIndex stream)
    (hnames : NameTable.decode (tableOffset header stream) table = .ok names) :
    decode order (encode order header stream [] ++ table) =
      .ok ⟨header, UInt32.ofNat (tableOffset header stream),
        fixedLength + (IndexCode.encode header.count).length, stream, names⟩ := by
  rw [decode_append_eq table hfits, IndexCode.decode_encode header.count hstream]
  simp only [hnames, List.drop_left]
  rfl

/-- The stream and the names that a payload gives stood in it: something ends the number of members in
front of that stream, and the names are those of the table. -/
theorem endIndex_of_decode_append {order : ByteOrder} {header : EntityHeader} {stream table : Bytes}
    {payload : EntityPayload} (hfits : tableOffset header stream < 2 ^ 32)
    (h : decode order (encode order header stream [] ++ table) = .ok payload) :
    IndexCode.EndIndex payload.stream ∧
      NameTable.decode (tableOffset header stream) table = .ok payload.names := by
  rw [decode_append_eq table hfits] at h
  split at h
  · cases h
  · rename_i count length hcount
    obtain ⟨digits, rest, hbytes, -, hrest, rfl⟩ := IndexCode.decode_eq_ok_iff.mp hcount
    obtain ⟨names, hnames, rfl⟩ := map_eq_ok.mp h
    refine ⟨?_, hnames⟩
    rw [hbytes, List.drop_left]
    exact hrest

/-- A payload is taken apart into what it was made from, and the names that its table gives. -/
theorem decode_encode {order : ByteOrder} {header : EntityHeader} {stream : Bytes}
    {names decoded : List String} (hfits : tableOffset header stream < 2 ^ 32)
    (hstream : IndexCode.EndIndex stream)
    (hnames : NameTable.decode (tableOffset header stream) (NameTable.encode names) =
      .ok decoded) :
    decode order (encode order header stream names) =
      .ok ⟨header, UInt32.ofNat (tableOffset header stream),
        fixedLength + (IndexCode.encode header.count).length, stream, decoded⟩ := by
  rw [encode_eq_append]
  exact decode_append hfits hstream hnames

/-- A payload gives back what it was made from, in front of nothing and in front of a zero byte alike,
exactly when something ends the number of members before the stream and the names hold no zero
characters and do not end in an empty one. -/
theorem decode_encode_padding_iff {order : ByteOrder} {header : EntityHeader} {stream : Bytes}
    {names : List String} (hfits : tableOffset header stream < 2 ^ 32) :
    (∃ payload,
      (∀ pad, IsPadding pad → decode order (encode order header stream names ++ pad) = .ok payload) ∧
      payload.header = header ∧ payload.stream = stream ∧ payload.names = names ∧
      payload.streamOffset = fixedLength + (IndexCode.encode header.count).length ∧
      payload.nameTableOffset.toNat = payload.streamOffset + stream.length) ↔
    IndexCode.EndIndex stream ∧ (∀ name ∈ names, '\x00' ∉ name.toList) ∧
      names.getLast? ≠ some "" := by
  constructor
  · rintro ⟨payload, hread, -, rfl, rfl, -⟩
    have hplain := hread [] (.inl rfl)
    rw [List.append_nil, encode_eq_append] at hplain
    obtain ⟨hstream, hnames⟩ := endIndex_of_decode_append hfits hplain
    exact ⟨hstream, NameTable.decode_encode_eq_ok_iff.mp hnames⟩
  · rintro ⟨hstream, hzero, hlast⟩
    refine ⟨⟨header, UInt32.ofNat (tableOffset header stream),
      fixedLength + (IndexCode.encode header.count).length, stream, names⟩, fun pad hpad => ?_,
      rfl, rfl, rfl, rfl, UInt32.toNat_ofNat_of_lt' hfits⟩
    rw [encode_eq_append, List.append_assoc]
    exact decode_append hfits hstream
      (NameTable.decode_encode_append _ hzero hpad fun _ => hlast)

/-- An empty name may stand anywhere but at the end, and members may be counted in several digits. -/
theorem decode_encode_padding_inner_empty_name :
    tableOffset ⟨7, 300⟩ [0x81, 0, 0x80] < 2 ^ 32 ∧
      ∃ payload,
        decode .big (encode .big ⟨7, 300⟩ [0x81, 0, 0x80] ["", "é"] ++ [0]) = .ok payload ∧
        payload.header = ⟨7, 300⟩ ∧ payload.stream = [0x81, 0, 0x80] ∧ payload.names = ["", "é"] ∧
        payload.streamOffset = 10 ∧ payload.nameTableOffset = 13 := by
  have hfits : tableOffset ⟨7, 300⟩ [0x81, 0, 0x80] < 2 ^ 32 := by decide
  obtain ⟨payload, hread, hheader, hstream, hnames, hstart, htable⟩ :=
    (decode_encode_padding_iff hfits).mpr
      ⟨IndexCode.endIndex_cons rfl, by decide, (by decide : ["", "é"].getLast? ≠ some "")⟩
  rw [hstart] at htable
  exact ⟨hfits, payload, hread [0] (.inr rfl), hheader, hstream, hnames, hstart,
    UInt32.toNat_inj.mp htable⟩

/-- The payload of a stream that decodes can be taken apart, whatever the names; no name that its table
gives holds a zero character. -/
theorem exists_decode_of_decodeStream {order : ByteOrder} {header : EntityHeader} {stream : Bytes}
    {original : List Instruction} (names : List String)
    (hstream : decodeStream order stream = .ok original)
    (hfits : tableOffset header stream < 2 ^ 32) :
    ∃ payload, decode order (encode order header stream names) = .ok payload ∧
      payload.header = header ∧ payload.instructions order = .ok original ∧
      ∀ name ∈ payload.names, '\x00' ∉ name.toList := by
  obtain ⟨decoded, hdecoded, hzero⟩ :=
    NameTable.exists_decode_encode (tableOffset header stream) names
  exact ⟨_, decode_encode hfits (endIndex_of_decodeStream hstream) hdecoded, rfl, hstream, hzero⟩

/-- The payload of a stream that an encoder wrote can be taken apart and its stream decoded, whatever
the names; no name that its table gives holds a zero character. -/
theorem exists_decode_of_appends {order : ByteOrder} {header : EntityHeader} {after : Encoder}
    {instructions : List Instruction} {names : List String}
    (h : Encoder.Appends (.start order) instructions names after)
    (hfits : tableOffset header after.finish.bytes < 2 ^ 32) :
    ∃ payload original,
      decode order (encode order header after.finish.bytes after.finish.names) = .ok payload ∧
      payload.header = header ∧ decodeStream order after.finish.bytes = .ok original ∧
      payload.instructions order = .ok original ∧
      assetOperands original = names.map (NameIndex.ofList names).number? ∧
      ∀ name ∈ payload.names, '\x00' ∉ name.toList := by
  obtain ⟨original, hstream, hoperands, -, -⟩ := h.exists_decodeStream
  obtain ⟨payload, hpayload, hheader, hinstructions, hzero⟩ :=
    exists_decode_of_decodeStream after.finish.names hstream hfits
  exact ⟨payload, original, hpayload, hheader, hstream, hinstructions, hoperands, hzero⟩

/-- Names that are not empty and hold no zero characters come back from the payload. -/
theorem names_of_appends {order : ByteOrder} {header : EntityHeader} {after : Encoder}
    {instructions : List Instruction} {names : List String} {payload : EntityPayload}
    (h : Encoder.Appends (.start order) instructions names after)
    (hfits : tableOffset header after.finish.bytes < 2 ^ 32)
    (hnames : ∀ name ∈ names, name ≠ "" ∧ '\x00' ∉ name.toList)
    (hpayload : decode order (encode order header after.finish.bytes after.finish.names) =
      .ok payload) :
    payload.names = names.eraseDups := by
  obtain ⟨original, hstream, -, heq, -⟩ := h.exists_decodeStream
  have hlast : names.eraseDups.getLast? ≠ some "" := by
    intro hlast
    have hmem := List.mem_of_getLast? hlast
    exact (hnames "" (List.mem_eraseDups.mp hmem)).1 rfl
  have htable := NameTable.decode_encode (tableOffset header after.finish.bytes)
    (fun name hname => (hnames name (List.mem_eraseDups.mp hname)).2) hlast
  rw [heq, decode_encode hfits (endIndex_of_decodeStream hstream) htable] at hpayload
  cases hpayload
  rfl

/-- When the names come back, each number in the stream stands for the name it was written for. -/
theorem operands_of_names {order : ByteOrder} {header : EntityHeader} {after : Encoder}
    {instructions original : List Instruction} {names : List String} {payload : EntityPayload}
    (h : Encoder.Appends (.start order) instructions names after)
    (hfits : tableOffset header after.finish.bytes < 2 ^ 32)
    (hpayload : payload.names = names.eraseDups)
    (horiginal : decodeStream order after.finish.bytes = .ok original) :
    (assetOperands original).map (·.bind payload.mediumName?) = names.map some := by
  obtain ⟨other, hother, hoperands, -, hcount⟩ := h.exists_decodeStream
  rw [horiginal] at hother
  cases hother
  have hsize : (NameIndex.ofList names).size ≤ 2 ^ 32 := by
    have hadded := NameIndex.size_addAll_le .empty names
    have hempty : NameIndex.empty.size = 0 := rfl
    have hofList : NameIndex.ofList names = NameIndex.empty.addAll names := rfl
    rw [tableOffset] at hfits
    rw [hofList]
    omega
  rw [hoperands, List.map_map]
  apply List.map_congr_left
  intro name hname
  have hthere : name ∈ (NameIndex.ofList names).names := by
    rw [NameIndex.names_ofList]
    exact List.mem_eraseDups.mpr hname
  have hnumber := NameIndex.number?_of_mem hthere
  have hback := NameIndex.name?_of_number? hsize hnumber
  rw [Function.comp_apply, hnumber]
  show payload.names[_]? = some name
  rw [hpayload, ← NameIndex.names_ofList]
  exact hback

end EntityPayload

namespace SetPayload

/-- The file of a set whose length fits in a word holds its class and its stream. -/
theorem ofFile_encodeFile {order : ByteOrder} {stream : Bytes} (classIndex : UInt32)
    (hfits : length stream < 2 ^ 32) :
    ofFile order (encodeFile order classIndex stream) = .ok (order.encode classIndex ++ stream) := by
  have hword : (UInt32.ofNat (length stream)).toNat = length stream :=
    UInt32.toNat_ofNat_of_lt' hfits
  have hfile : encodeFile order classIndex stream =
      order.encode (UInt32.ofNat (length stream)) ++ (order.encode classIndex ++ stream) :=
    List.append_assoc ..
  have hlength : (encodeFile order classIndex stream).length - 4 = length stream := by
    rw [hfile]
    simp only [List.length_append, ByteOrder.length_encode, length]
    omega
  unfold ofFile
  rw [hlength, hfile, ByteOrder.word?_encode]
  dsimp only
  rw [if_pos hword, List.drop_left' (ByteOrder.length_encode ..)]

/-- What the file of a set holds is taken apart into its class and its stream. -/
theorem decode_append (order : ByteOrder) (classIndex : UInt32) (stream : Bytes) :
    decode order (order.encode classIndex ++ stream) = .ok ⟨classIndex, stream⟩ := by
  unfold decode
  rw [ByteOrder.word?_encode]
  dsimp only
  rw [List.drop_left' (ByteOrder.length_encode ..)]

end SetPayload

end StageArchive
