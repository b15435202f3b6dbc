import StageArchive.Proofs.Guarded
import StageArchive.Proofs.Instruction.Grammar
/-!
# Reading a stream by places

A stream is read with a place in it: every instruction, operand and value is taken as a part of the whole
stream, and the reader looks whether the part is there. `decodeStream_eq` says that it always is, and
that what is read is what the decoder reads.
-/

namespace StageArchive.Guarded

/-- The operand at a place of a stream, for an instruction that starts at another. -/
def operandAt (order : ByteOrder) (stream : Bytes) (registers : Registers) (opcode : Opcode)
    (start place : Nat) (kind : OperandKind) : Guarded StreamFault Operand :=
  match kind with
  | .symbol _ | .count | .asset => do
    let bytes ← sliceFrom stream place
    match IndexCode.decode bytes with
    | .ok (value, length) => pure ⟨kind, .index value, length⟩
    | .error _ => throw (.indexOverflow place)
  | .word =>
    match order.word? stream place with
    | some value => pure ⟨kind, .word value, 4⟩
    | none => throw (.truncated opcode start)
  | .bytes =>
    match registers.length with
    | none => throw (.missingLength start)
    | some length =>
      if place + length.toNat ≤ stream.length then do
        let value ← slice stream place (place + length.toNat)
        pure ⟨kind, .bytes value, length.toNat⟩
      else throw (.truncated opcode start)

/-- The registers after an instruction with some operands. -/
def registersAfter (registers : Registers) (opcode : Opcode) (operands : List Operand) :
    Guarded StreamFault Registers :=
  match opcode with
  | .setOffset => do
    let first ← element operands 0
    pure { registers with offset := first.value.index? }
  | .setLength => do
    let first ← element operands 0
    pure { registers with length := first.value.index? }
  | _ => pure registers

/-- The instruction at a place that has an opcode and operands, and the registers after it. -/
def complete (stream : Bytes) (registers : Registers) (opcode : Opcode) (place : Nat)
    (operands : List Operand) : Guarded StreamFault (Instruction × Registers) := do
  let after ← registersAfter registers opcode operands
  let bytes ← slice stream place (operands.foldl (fun last operand => last + operand.length) (place + 1))
  pure (⟨place, opcode, operands.head?, bytes⟩, after)

/-- The instruction whose opcode byte is at a place, and the registers after it. -/
def instructionAt (order : ByteOrder) (stream : Bytes) (registers : Registers) (place : Nat)
    (byte : UInt8) : Guarded StreamFault (Instruction × Registers) :=
  if !IndexCode.isOpcodeByte byte then throw (.expectedOpcode byte place)
  else
    match Opcode.ofByte? byte with
    | none => throw (.unknownOpcode byte place)
    | some opcode => do
      let operands ← opcode.operand?.toList.mapM
        (operandAt order stream registers opcode place (place + 1))
      complete stream registers opcode place operands

/-- The number of bytes of an instruction's operand. -/
def operandLength (instruction : Instruction) : Nat :=
  (instruction.operand.map (·.length)).getD 0

/-- The instructions from a place on up to the end of the stream, and the place behind them. -/
def readFrom (order : ByteOrder) (stream : Bytes) (registers : Registers) (place : Nat) :
    Guarded StreamFault (List Instruction × Nat) :=
  match h : stream[place]? with
  | none => throw .missingTerminator
  | some byte => do
    let (instruction, after) ← instructionAt order stream registers place byte
    if instruction.opcode = .finish then
      pure ([instruction], place + 1 + operandLength instruction)
    else
      have := (List.getElem?_eq_some_iff.mp h).1
      let (others, last) ←
        readFrom order stream after (place + 1 + operandLength instruction)
      pure (instruction :: others, last)
termination_by stream.length - place

/-- Reads a whole stream, after which nothing may follow but one zero byte. -/
def decodeStream (order : ByteOrder) (stream : Bytes) : Guarded StreamFault (List Instruction) := do
  let (instructions, last) ← readFrom order stream .blank 0
  let rest ← sliceFrom stream last
  if rest = [] ∨ rest = [0] then pure instructions
  else throw (.trailingBytes last rest.length)

variable {order : ByteOrder} {stream : Bytes} {registers : Registers} {place : Nat}

/-- The decoder at a place of a stream. -/
def decoderAt (order : ByteOrder) (stream : Bytes) (registers : Registers) (place : Nat) : Decoder :=
  ⟨order, place, stream.drop place, registers, .reading⟩

/-- A word at a place is the first word from there on. -/
theorem word?_drop (order : ByteOrder) (stream : Bytes) (place : Nat) :
    order.word? (stream.drop place) 0 = order.word? stream place := by
  rw [ByteOrder.word?, List.drop_zero]
  rfl

/-- An operand is the one that the decoder reads. -/
theorem operandAt_eq {opcode : Opcode} {kind : OperandKind} (h : place < stream.length) :
    operandAt order stream registers opcode place (place + 1) kind =
      settled ((decoderAt order stream registers place).readOperand opcode kind
        (stream.drop (place + 1))) := by
  unfold operandAt Decoder.readOperand
  cases kind with
  | symbol | count | asset =>
      dsimp only
      rw [sliceFrom_eq h, settled_ok_bind]
      cases IndexCode.decode (stream.drop (place + 1)) <;> rfl
  | word =>
      dsimp only
      rw [word?_drop]
      show _ = settled (match order.word? stream (place + 1) with | some _ => _ | none => _)
      cases order.word? stream (place + 1) <;> rfl
  | bytes =>
      show (match registers.length with | none => _ | some _ => _) =
        settled (match registers.length with | none => _ | some _ => _)
      cases registers.length with
      | none => rfl
      | some length =>
          have hroom : place + 1 + length.toNat ≤ stream.length ↔
              length.toNat ≤ (stream.drop (place + 1)).length := by
            rw [List.length_drop]
            omega
          dsimp only
          by_cases hfits : place + 1 + length.toNat ≤ stream.length
          · rw [if_pos hfits, if_pos (hroom.mp hfits), slice_eq (Nat.le_add_right ..) hfits,
              settled_ok_bind, Nat.add_sub_cancel_left]
            rfl
          · rw [if_neg hfits, if_neg (mt hroom.mpr hfits)]
            rfl

/-- An operand that is read lies in the stream. -/
theorem length_le_of_readOperand {decoder : Decoder} {opcode : Opcode} {kind : OperandKind}
    {bytes : Bytes} {operand : Operand} (h : decoder.readOperand opcode kind bytes = .ok operand) :
    operand.length ≤ bytes.length := by
  obtain ⟨-, tail, rest, rfl, hlength, -⟩ := Decoder.eq_append_of_readOperand h
  rw [hlength, List.length_append]
  exact Nat.le_add_right ..

/-- The registers after an instruction are settled by its opcode and operand, where the opcode takes one. -/
theorem registersAfter_eq {opcode : Opcode} {operand : Option Operand} {bytes : Bytes}
    (h : operand.isSome = opcode.operand?.isSome) :
    registersAfter registers opcode operand.toList =
      settled (.ok (registers.after ⟨place, opcode, operand, bytes⟩)) := by
  cases opcode with
  | setOffset | setLength =>
      obtain ⟨found, rfl⟩ := Option.isSome_iff_exists.mp h
      rfl
  | _ => rfl

/-- An instruction whose operand lies in the stream is completed by its bytes. -/
theorem complete_eq {opcode : Opcode} {operand : Option Operand} (h : place < stream.length)
    (hsome : operand.isSome = opcode.operand?.isSome)
    (hlength : (operand.map (·.length)).getD 0 ≤ (stream.drop (place + 1)).length) :
    let instruction : Instruction := ⟨place, opcode, operand,
      stream[place] :: (stream.drop (place + 1)).take ((operand.map (·.length)).getD 0)⟩
    complete stream registers opcode place operand.toList =
      settled (.ok (instruction, registers.after instruction)) := by
  intro instruction
  have hlast : operand.toList.foldl (fun last operand => last + operand.length) (place + 1) =
      place + 1 + (operand.map (·.length)).getD 0 := by
    cases operand <;> rfl
  rw [List.length_drop] at hlength
  have hbytes : (slice stream place (place + 1 + (operand.map (·.length)).getD 0) :
      Guarded StreamFault Bytes) = settled (.ok instruction.bytes) := by
    have hcount : place + 1 + (operand.map (·.length)).getD 0 - place =
        (operand.map (·.length)).getD 0 + 1 := by omega
    rw [slice_eq (by omega) (by omega), hcount, List.drop_eq_getElem_cons h, List.take_succ_cons]
  rw [complete, registersAfter_eq hsome, settled_ok_bind, hlast, hbytes, settled_ok_bind]
  cases operand <;> rfl

/-- An instruction is the one that the decoder reads. -/
theorem instructionAt_eq {byte : UInt8} (h : stream[place]? = some byte) :
    instructionAt order stream registers place byte =
      settled ((decoderAt order stream registers place).read.1.map fun instruction =>
        (instruction, registers.after instruction)) := by
  obtain ⟨hplace, rfl⟩ := List.getElem?_eq_some_iff.mp h
  have hrest : (decoderAt order stream registers place).rest =
      stream[place] :: stream.drop (place + 1) :=
    List.drop_eq_getElem_cons hplace
  unfold instructionAt Decoder.read
  rw [hrest]
  dsimp only
  split
  · rfl
  · cases Opcode.ofByte? stream[place] with
    | none => rfl
    | some opcode =>
        unfold Decoder.readOperand?
        dsimp only
        cases hkind : opcode.operand? with
        | none =>
            have hcomplete := @complete_eq stream registers place opcode none hplace
              (by rw [hkind]; rfl) (Nat.zero_le _)
            exact hcomplete
        | some kind =>
            -- The list of operands has at most one member.
            have hone : (some kind).toList.mapM
                (operandAt order stream registers opcode place (place + 1)) = (do
                  let operand ← operandAt order stream registers opcode place (place + 1) kind
                  pure [operand]) := by
              rw [Option.toList_some, List.mapM_cons, List.mapM_nil]
              rfl
            rw [hone, operandAt_eq hplace]
            dsimp only
            cases hread : (decoderAt order stream registers place).readOperand opcode kind
              (stream.drop (place + 1)) with
            | error fault => rfl
            | ok operand =>
                have hcomplete := @complete_eq stream registers place opcode (some operand) hplace
                  (by rw [hkind]; rfl) (length_le_of_readOperand hread)
                exact hcomplete

/-- An instruction has a byte for its opcode and those of its operand. -/
theorem length_bytes_of_spelled {instruction : Instruction}
    (h : instruction.Spelled order registers) :
    instruction.bytes.length = 1 + operandLength instruction := by
  unfold Instruction.Spelled at h
  split at h
  · rename_i hnone
    rw [h, operandLength, hnone]
    rfl
  · rename_i hsome
    obtain ⟨-, tail, hbytes, hlength, -⟩ := h
    rw [hbytes, operandLength, hsome, List.length_cons, Nat.add_comm, ← hlength]
    rfl
  · cases h

/-- Where an instruction was read that does not end the stream, the decoder goes on behind it. -/
theorem advance_decoderAt {instruction : Instruction} (h : instruction.opcode ≠ .finish)
    (hspelled : instruction.Spelled order registers) :
    (decoderAt order stream registers place).advance instruction =
      decoderAt order stream (registers.after instruction)
        (place + 1 + operandLength instruction) := by
  have hlength := length_bytes_of_spelled hspelled
  rw [Decoder.advance, if_neg h]
  show Decoder.mk order (place + _) ((stream.drop place).drop _) _ _ = _
  rw [List.drop_drop, hlength, ← Nat.add_assoc]
  rfl

/-- An instruction that the decoder reads lies in the stream. -/
theorem spelled_of_read {instruction : Instruction} {after : Decoder} (hplace : place < stream.length)
    (h : (decoderAt order stream registers place).read = (.ok instruction, after)) :
    instruction.Spelled order registers ∧
      place + 1 + operandLength instruction ≤ stream.length ∧
      after = (decoderAt order stream registers place).advance instruction := by
  obtain ⟨-, hspelled, hafter, rest, hrest⟩ := Decoder.eq_append_of_read h
  have hlengths := congrArg List.length hrest
  rw [decoderAt, List.length_drop, List.length_append, length_bytes_of_spelled hspelled] at hlengths
  exact ⟨hspelled, by omega, hafter⟩

/-- A reader with a place and a decoder stopped at one point of a stream, with the same instructions. -/
def StopsWith (stream : Bytes) (found : List Instruction × Nat) (read : List Instruction × Decoder) :
    Prop :=
  found.1 = read.1 ∧ found.2 = read.2.position ∧ read.2.rest = stream.drop found.2 ∧
    found.2 ≤ stream.length

/-- Where an instruction was read that ends the stream, both readers stop behind it. -/
theorem stopsWith_advance {instruction : Instruction} (hspelled : instruction.Spelled order registers)
    (hroom : place + 1 + operandLength instruction ≤ stream.length) :
    StopsWith stream ([instruction], place + 1 + operandLength instruction)
      ([instruction], (decoderAt order stream registers place).advance instruction) := by
  have hlength := length_bytes_of_spelled hspelled
  refine ⟨rfl, ?_, ?_, hroom⟩
  · show _ = place + instruction.bytes.length
    rw [hlength, Nat.add_assoc]
  · show (stream.drop place).drop instruction.bytes.length = _
    rw [List.drop_drop, hlength, Nat.add_assoc]

/-- Two readers that stop at one point do so with an instruction more before the others. -/
theorem matched_cons {found : Except StreamFault (List Instruction × Nat)}
    {read : Except StreamFault (List Instruction × Decoder)} (instruction : Instruction)
    (h : Matched (StopsWith stream) found read) :
    Matched (StopsWith stream) (found.map fun (others, last) => (instruction :: others, last))
      (read.map fun (others, last) => (instruction :: others, last)) := by
  cases h with
  | error fault => exact .error fault
  | ok hstops =>
      obtain ⟨hothers, hstops⟩ := hstops
      exact .ok ⟨congrArg (instruction :: ·) hothers, hstops⟩

/-- Reading by places settles on what the decoder reads. -/
theorem readFrom_matched (h : place ≤ stream.length) :
    ∃ outcome, readFrom order stream registers place = settled outcome ∧
      Matched (StopsWith stream) outcome (decoderAt order stream registers place).readAll := by
  -- Every instruction takes the opcode's byte, so that less is left behind it.
  induction hleft : stream.length - place using Nat.strongRecOn generalizing place registers with
  | ind left ih =>
    rw [readFrom]
    split
    · rename_i hnone
      have hrest : (decoderAt order stream registers place).rest = [] :=
        List.drop_eq_nil_of_le (List.getElem?_eq_none_iff.mp hnone)
      have hread : (decoderAt order stream registers place).read =
          (.error .missingTerminator, (decoderAt order stream registers place).fail 0) := by
        rw [Decoder.read, hrest]
      rw [Decoder.readAll_of_error rfl hread]
      exact ⟨_, rfl, .error _⟩
    · rename_i byte hbyte
      rw [instructionAt_eq hbyte]
      rcases hread : (decoderAt order stream registers place).read with ⟨result, after⟩
      cases result with
      | error fault =>
          rw [Decoder.readAll_of_error rfl hread]
          exact ⟨_, rfl, .error fault⟩
      | ok instruction =>
          have hplace := (List.getElem?_eq_some_iff.mp hbyte).1
          obtain ⟨hspelled, hroom, rfl⟩ := spelled_of_read hplace hread
          rw [Decoder.readAll_of_ok rfl hread]
          dsimp only [Except.map, settled_ok_bind]
          by_cases hfinish : instruction.opcode = .finish
          · have hended := mt (Decoder.status_advance (decoderAt order stream registers place)
              instruction).mp (not_not_intro hfinish)
            rw [if_pos hfinish, Decoder.readAll_of_status_ne hended]
            exact ⟨_, rfl, .ok (stopsWith_advance hspelled hroom)⟩
          · obtain ⟨outcome, hsettled, hmatched⟩ := ih _ (by omega) hroom rfl
            rw [if_neg hfinish, advance_decoderAt hfinish hspelled, hsettled]
            refine ⟨_, ?_, matched_cons instruction hmatched⟩
            cases outcome <;> rfl

/-- A stream is read by places as it is decoded, and never outside of it. -/
theorem decodeStream_eq (order : ByteOrder) (stream : Bytes) :
    decodeStream order stream = settled (StageArchive.decodeStream order stream) := by
  obtain ⟨outcome, hsettled, hmatched⟩ :=
    @readFrom_matched order stream .blank 0 (Nat.zero_le _)
  have hstart : decoderAt order stream .blank 0 = Decoder.start order stream := rfl
  rw [hstart] at hmatched
  rw [decodeStream, hsettled, StageArchive.decodeStream]
  generalize (Decoder.start order stream).readAll = read at hmatched
  cases hmatched with
  | error fault => rfl
  | @ok found read hstops =>
      obtain ⟨instructions, last⟩ := found
      obtain ⟨others, decoder⟩ := read
      obtain ⟨hinstructions, hplace, hrest, hroom⟩ := hstops
      dsimp only at hinstructions hplace hrest hroom
      subst hinstructions hplace
      dsimp only [settled_ok_bind]
      rw [sliceFrom_eq hroom, settled_ok_bind, ← hrest]
      show (if _ then _ else _) = settled (if _ then _ else _)
      split <;> rfl

end StageArchive.Guarded
