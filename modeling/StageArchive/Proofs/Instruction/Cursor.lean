import StageArchive.Proofs.Instruction.Guarded
import StageArchive.Proofs.Instruction.Stopping
/-!
# Reading a stream field by field

A cursor goes over a whole stream and changes its position, registers and flags one at a time, some before
and some after the places where an instruction may turn out to be at fault. `next_eq` says that each call
leaves it as the decoder is left: the position of a fault is that of the fields which were changed before it.
The main statement, `Decoder.call_leaves_in_place`, is about both.
-/

namespace StageArchive

/-- A stream with a position in it, and flags for its end and for a fault. -/
structure Cursor where
  stream : Bytes
  order : ByteOrder
  position : Nat
  registers : Registers
  ended : Bool
  failed : Bool
  deriving DecidableEq, Repr

namespace Cursor

/-- A part of reading an instruction, which may fail and changes the cursor either way. -/
abbrev Step (α : Type) := ExceptT StreamFault (StateM Cursor) α

/-- A cursor before a stream. -/
def start (order : ByteOrder) (stream : Bytes) : Cursor :=
  ⟨stream, order, 0, .blank, false, false⟩

/-- Moves over some bytes. -/
def skip (count : Nat) : Step Unit :=
  modify fun cursor => { cursor with position := cursor.position + count }

/-- Reads an operand at the position, for an instruction that starts at another. -/
def operand (opcode : Opcode) (start : Nat) (kind : OperandKind) : Step Operand := do
  let cursor ← get
  match kind with
  | .symbol _ | .count | .asset =>
    match IndexCode.decode (cursor.stream.drop cursor.position) with
    | .error _ => throw (.indexOverflow cursor.position)
    | .ok (value, length) =>
      skip length
      return ⟨kind, .index value, length⟩
  | .word =>
    match cursor.order.word? cursor.stream cursor.position with
    | none => throw (.truncated opcode start)
    | some value =>
      skip 4
      return ⟨kind, .word value, 4⟩
  | .bytes =>
    match cursor.registers.length with
    | none => throw (.missingLength start)
    | some length =>
      if cursor.position + length.toNat ≤ cursor.stream.length then
        skip length.toNat
        return ⟨kind, .bytes ((cursor.stream.drop cursor.position).take length.toNat), length.toNat⟩
      else throw (.truncated opcode start)

/-- Changes a register or sets the flag for the end, as an instruction says. -/
def settle (opcode : Opcode) (operands : List Operand) : Step Unit :=
  match opcode with
  | .setOffset => modify fun cursor =>
    { cursor with registers.offset := operands.head?.bind (·.value.index?) }
  | .setLength => modify fun cursor =>
    { cursor with registers.length := operands.head?.bind (·.value.index?) }
  | .finish => modify fun cursor => { cursor with ended := true }
  | _ => pure ()

/-- Reads the rest of an instruction whose opcode byte is at the position. -/
def complete (opcode : Opcode) : Step Instruction := do
  let start := (← get).position
  skip 1
  let operands ← opcode.operand?.toList.mapM (operand opcode start)
  settle opcode operands
  let cursor ← get
  return ⟨start, opcode, operands.head?, (cursor.stream.drop start).take (cursor.position - start)⟩

/-- Reads the instruction at the position. -/
def instruction : Step Instruction := do
  let start := (← get).position
  match (← get).stream[start]? with
  | none => throw .missingTerminator
  | some byte =>
    if !IndexCode.isOpcodeByte byte then throw (.expectedOpcode byte start)
    match Opcode.ofByte? byte with
    | none => throw (.unknownOpcode byte start)
    | some opcode => complete opcode

/-- Reads the next instruction, if neither the end nor a fault came before. -/
def next (cursor : Cursor) : Option (Except StreamFault Instruction) × Cursor :=
  if cursor.ended || cursor.failed then (none, cursor)
  else
    match instruction cursor with
    | (.ok instruction, after) => (some (.ok instruction), after)
    | (.error fault, after) => (some (.error fault), { after with failed := true })

/-- A cursor after some calls. -/
def afterCalls (cursor : Cursor) : Nat → Cursor
  | 0 => cursor
  | count + 1 => (cursor.afterCalls count).next.2

end Cursor

/-- The cursor that a decoder of a stream stands for. -/
def Decoder.cursor (decoder : Decoder) (stream : Bytes) : Cursor :=
  ⟨stream, decoder.order, decoder.position, decoder.registers, decoder.status = .ended,
    decoder.status = .failed⟩

namespace Cursor

variable {decoder : Decoder} {cursor : Cursor} {opcode : Opcode}

/-- A cursor may be looked at in every step. -/
theorem run_get (cursor : Cursor) : (get : Step Cursor) cursor = (.ok cursor, cursor) := rfl

/-- An operand is read as the decoder reads it, and the cursor moves over it. -/
theorem operand_eq (opcode : Opcode) (kind : OperandKind)
    (hposition : cursor.position = decoder.position + 1) (horder : cursor.order = decoder.order)
    (hregisters : cursor.registers = decoder.registers) (hinside : cursor.position ≤ cursor.stream.length) :
    operand opcode decoder.position kind cursor =
      match decoder.readOperand opcode kind (cursor.stream.drop cursor.position) with
      | .ok operand => (.ok operand, { cursor with position := cursor.position + operand.length })
      | .error fault => (.error fault, cursor) := by
  unfold operand Decoder.readOperand
  rw [run_bind_of_eq (run_get cursor), ← horder, ← hregisters, ← hposition]
  cases kind with
  | symbol | count | asset =>
      dsimp only
      cases IndexCode.decode (cursor.stream.drop cursor.position) <;> rfl
  | word =>
      dsimp only
      rw [Guarded.word?_drop]
      cases cursor.order.word? cursor.stream cursor.position <;> rfl
  | bytes =>
      dsimp only
      cases cursor.registers.length with
      | none => rfl
      | some length =>
          -- The cursor measures from the beginning of the stream, the decoder from the operand.
          have hroom : cursor.position + length.toNat ≤ cursor.stream.length ↔
              length.toNat ≤ (cursor.stream.drop cursor.position).length := by
            rw [List.length_drop]
            omega
          dsimp only
          by_cases hfits : cursor.position + length.toNat ≤ cursor.stream.length
          · rw [if_pos hfits, if_pos (hroom.mp hfits)]
            rfl
          · rw [if_neg hfits, if_neg (mt hroom.mpr hfits)]
            rfl

/-- The operand that an opcode takes is read as the decoder reads it. -/
theorem operands_eq (decoder : Decoder) (cursor : Cursor) (opcode : Opcode)
    (hposition : cursor.position = decoder.position + 1) (horder : cursor.order = decoder.order)
    (hregisters : cursor.registers = decoder.registers) (hinside : cursor.position ≤ cursor.stream.length) :
    (opcode.operand?.toList.mapM (operand opcode decoder.position) : Step (List Operand)) cursor =
      match decoder.readOperand? opcode (cursor.stream.drop cursor.position) with
      | .ok operand => (.ok operand.toList,
        { cursor with position := cursor.position + (operand.map (·.length)).getD 0 })
      | .error fault => (.error fault, cursor) := by
  unfold Decoder.readOperand?
  cases opcode.operand? with
  | none => rfl
  | some kind =>
      have hread := operand_eq opcode kind hposition horder hregisters hinside
      rw [Option.toList_some, List.mapM_cons, List.mapM_nil]
      dsimp only
      cases hoperand : decoder.readOperand opcode kind (cursor.stream.drop cursor.position) with
      | error fault =>
          rw [hoperand] at hread
          exact run_bind_of_error hread
      | ok operand =>
          rw [hoperand] at hread
          rw [run_bind_of_eq hread]
          rfl

/-- Registers and the flag for the end change as an instruction says. -/
theorem settle_eq (cursor : Cursor) (opcode : Opcode) (operand : Option Operand) (offset : Nat)
    (bytes : Bytes) :
    settle opcode operand.toList cursor = (.ok (), { cursor with
      registers := cursor.registers.after ⟨offset, opcode, operand, bytes⟩
      ended := cursor.ended || decide (opcode = .finish) }) := by
  obtain ⟨stream, order, position, registers, ended, failed⟩ := cursor
  cases opcode with
  | finish => cases ended <;> rfl
  | _ => cases ended <;> cases operand <;> rfl

/-- An operand that is read lies in the bytes behind its opcode. -/
theorem length_le_of_readOperand? {operand : Option Operand} {bytes : Bytes}
    (h : decoder.readOperand? opcode bytes = .ok operand) :
    (operand.map (·.length)).getD 0 ≤ bytes.length := by
  unfold Decoder.readOperand? at h
  split at h
  · cases h
    exact Nat.zero_le _
  · obtain ⟨found, hread, rfl⟩ := map_eq_ok.mp h
    exact Guarded.length_le_of_readOperand hread

/-- The cursor that a decoder stands for after an instruction. -/
theorem cursor_advance (decoder : Decoder) (stream : Bytes) (instruction : Instruction) :
    (decoder.advance instruction).cursor stream =
      ⟨stream, decoder.order, decoder.position + instruction.bytes.length,
        decoder.registers.after instruction, instruction.opcode = .finish, false⟩ := by
  unfold Decoder.advance Decoder.cursor
  by_cases hfinish : instruction.opcode = .finish <;> simp [hfinish]

/-- The rest of an instruction is read as the decoder reads it. Where the operand is at fault the cursor has
moved over the opcode and nothing else is changed. -/
theorem complete_eq (decoder : Decoder) (opcode : Opcode) {stream bytes : Bytes} {byte : UInt8}
    (h : decoder.Follows stream) (hreading : decoder.status = .reading)
    (hrest : decoder.rest = byte :: bytes) :
    complete opcode (decoder.cursor stream) =
      match decoder.readOperand? opcode bytes with
      | .error fault => (.error fault, { (decoder.fail 1).cursor stream with failed := false })
      | .ok operand =>
        let instruction : Instruction := ⟨decoder.position, opcode, operand,
          byte :: bytes.take ((operand.map (·.length)).getD 0)⟩
        (.ok instruction, { (decoder.advance instruction).cursor stream with failed := false }) := by
  obtain ⟨hbyte, hbehind⟩ := h.rest_cons hrest
  have hplace := (List.getElem?_eq_some_iff.mp hbyte).1
  have hdrop := h.rest_eq.symm.trans hrest
  obtain ⟨order, position, rest, registers, status⟩ := decoder
  dsimp only at hreading hrest hbehind hplace hdrop
  subst hreading hrest
  let reading : Decoder := ⟨order, position, byte :: bytes, registers, .reading⟩
  -- Behind its opcode an instruction has changed nothing but the position.
  let moved : Cursor := ⟨stream, order, position + 1, registers, false, false⟩
  have hread := operands_eq reading moved opcode rfl rfl rfl hplace
  rw [show moved.stream.drop moved.position = bytes from hbehind.symm] at hread
  show (opcode.operand?.toList.mapM (operand opcode position) >>= _ : Step Instruction) moved = _
  cases hoperand : reading.readOperand? opcode bytes with
  | error fault =>
      rw [hoperand] at hread
      rw [run_bind_of_error hread]
      rfl
  | ok operand =>
      rw [hoperand] at hread
      let length := (operand.map (·.length)).getD 0
      let instruction : Instruction := ⟨position, opcode, operand, byte :: bytes.take length⟩
      have hlength : instruction.bytes.length = length + 1 := by
        show (bytes.take length).length + 1 = _
        rw [List.length_take, Nat.min_eq_left (length_le_of_readOperand? hoperand)]
      have hbytes : (stream.drop position).take (position + 1 + length - position) =
          instruction.bytes := by
        rw [hdrop, show position + 1 + length - position = length + 1 by omega, List.take_succ_cons]
      have hhead : operand.toList.head? = operand := by
        cases operand <;> rfl
      rw [run_bind_of_eq hread, run_bind_of_eq (settle_eq _ opcode operand position
        (byte :: bytes.take length)), run_bind_of_eq (run_get _)]
      show (Except.ok (Instruction.mk position opcode operand.toList.head?
        ((stream.drop position).take (position + 1 + length - position))), _) =
          (Except.ok instruction, { (reading.advance instruction).cursor stream with failed := false })
      rw [hhead, hbytes, cursor_advance, hlength, ← Nat.add_assoc, Nat.add_right_comm]
      rfl

/-- An instruction is read as the decoder reads it; of a fault only the flag is still to be set. -/
theorem instruction_eq {stream : Bytes} (h : decoder.Follows stream)
    (hreading : decoder.status = .reading) :
    instruction (decoder.cursor stream) =
      (decoder.read.1, { decoder.read.2.cursor stream with failed := false }) := by
  obtain ⟨order, position, rest, registers, status⟩ := decoder
  obtain ⟨hrest, hposition⟩ := h
  dsimp only at hrest hposition hreading
  subst hreading
  unfold instruction
  rw [run_bind_of_eq (run_get _), run_bind_of_eq (run_get _)]
  show (match stream[position]? with | none => _ | some _ => _ : Step Instruction) _ = _
  cases hbyte : stream[position]? with
  | none =>
      have hnil : rest = [] := hrest.trans (List.drop_eq_nil_of_le (List.getElem?_eq_none_iff.mp hbyte))
      subst hnil
      rfl
  | some byte =>
      obtain ⟨hplace, rfl⟩ := List.getElem?_eq_some_iff.mp hbyte
      -- The cursor reads at a place, the decoder takes the first byte of what is left.
      obtain rfl : rest = stream[position] :: stream.drop (position + 1) :=
        hrest.trans (List.drop_eq_getElem_cons hplace)
      unfold Decoder.read
      dsimp only
      by_cases hdigit : (!IndexCode.isOpcodeByte stream[position]) = true
      · rw [if_pos hdigit, if_pos hdigit]
        rfl
      · rw [if_neg hdigit, if_neg hdigit]
        cases Opcode.ofByte? stream[position] with
        | none => rfl
        | some opcode =>
            have hcomplete := complete_eq ⟨order, position,
              stream[position] :: stream.drop (position + 1), registers, .reading⟩ opcode
              ⟨hrest, hposition⟩ rfl rfl
            refine hcomplete.trans ?_
            dsimp only
            cases Decoder.readOperand? _ opcode (stream.drop (position + 1)) <;> rfl

/-- A call answers as the decoder does and leaves the cursor as the decoder is left. -/
theorem next_eq {stream : Bytes} (h : decoder.Follows stream) :
    (decoder.cursor stream).next = (decoder.call.1, decoder.call.2.cursor stream) := by
  unfold next Decoder.call Decoder.next?
  by_cases hreading : decoder.status = .reading
  · have hflags : ((decoder.cursor stream).ended || (decoder.cursor stream).failed) = false := by
      simp [Decoder.cursor, hreading]
    rw [hflags, if_neg Bool.false_ne_true, if_pos hreading, instruction_eq h hreading]
    rcases hread : decoder.read with ⟨outcome, after⟩
    cases outcome with
    | ok instruction =>
        obtain ⟨-, -, rfl, -⟩ := Decoder.eq_append_of_read hread
        dsimp only
        rw [cursor_advance]
    | error fault =>
        obtain ⟨skipped, rfl, -⟩ := h.failsAt hread
        rfl
  · have hflags : ((decoder.cursor stream).ended || (decoder.cursor stream).failed) = true := by
      unfold Decoder.cursor
      cases hstatus : decoder.status with
      | reading => exact absurd hstatus hreading
      | ended | failed => simp
    rw [hflags, if_pos rfl, if_neg hreading]

/-- All calls leave the cursor as the decoder is left. -/
theorem afterCalls_eq {stream : Bytes} (h : decoder.Follows stream) (count : Nat) :
    (decoder.cursor stream).afterCalls count = (decoder.afterCalls count).cursor stream := by
  induction count with
  | zero => rfl
  | succ count ih =>
      show ((decoder.cursor stream).afterCalls count).next.2 = _
      rw [ih, next_eq (h.afterCalls count)]
      rfl

end Cursor

namespace Decoder

/-- A call finds a decoder inside its stream, with the operands of the last instructions that set the
registers, and leaves it behind the instruction that it gives, or at a fault with the registers as they were.
After the end of the stream or a fault nothing is given and nothing changes. A cursor that is changed field by
field gives the same and is left the same. -/
theorem call_leaves_in_place (order : ByteOrder) (stream : Bytes) (count : Nat) :
    let decoder := start order stream
    let before := decoder.afterCalls count
    let after := decoder.afterCalls (count + 1)
    (before.position ≤ stream.length ∧ before.position ≤ after.position ∧
      before.rest = stream.drop before.position) ∧
    (before.registers.offset = latestOperand .setOffset (decoder.returned count) ∧
      before.registers.length = latestOperand .setLength (decoder.returned count) ∧
      ∀ instruction ∈ decoder.returned count,
        instruction.opcode = .setOffset ∨ instruction.opcode = .setLength →
          ∃ value, instruction.index? = some value) ∧
    (∀ instruction, decoder.answer count = some (.ok instruction) →
      instruction.offset = before.position ∧
      after.position = before.position + instruction.bytes.length ∧
      instruction.bytes = (stream.drop before.position).take instruction.bytes.length) ∧
    (∀ fault, decoder.answer count = some (.error fault) →
      after.registers = before.registers ∧
      FailsAt stream before.registers.length before.position fault after.position) ∧
    (decoder.answer count = none ↔ decoder.GaveEnd count ∨ decoder.GaveFault count) ∧
    (decoder.answer count = none → after = before) ∧
    (before.status = .ended ↔ decoder.GaveEnd count) ∧
    (Cursor.start order stream).afterCalls count = before.cursor stream ∧
    (before.cursor stream).next = (decoder.answer count, after.cursor stream) := by
  intro decoder before after
  have hstart : decoder.Follows stream := follows_start order stream
  have hbefore : before.Follows stream := hstart.afterCalls count
  have hreached : decoder.Reached count := reached_afterCalls order stream count
  have hregisters := hreached.registers_eq.trans
    (Registers.afterAll_eq_latest (decoder.returned count))
  refine ⟨⟨hbefore.position_le, hbefore.position_le_call, hbefore.rest_eq⟩,
    ⟨congrArg Registers.offset hregisters, congrArg Registers.length hregisters,
      fun instruction hmem hset => hstart.exists_index hmem hset⟩,
    fun instruction hanswer => ?_, fun fault hanswer => hbefore.failsAt_of_answer hanswer,
    hreached.answer_eq_none_iff, afterCalls_succ_of_none, hreached.ended_iff,
    Cursor.afterCalls_eq hstart count, Cursor.next_eq hbefore⟩
  obtain ⟨hoffset, -, hbytes, hafter⟩ := hbefore.read_of_answer hanswer
  exact ⟨hoffset, congrArg Decoder.position hafter, hbytes⟩

/-- A stream whose third instruction takes more bytes than there are. -/
def shortCopy : Bytes :=
  [0x8a, 2, 0x8b, 2, 0x8c, 7]

/-- The operand of the third instruction is at fault: the registers keep the two operands before it, the
position is behind its opcode, and the next call gives nothing. -/
theorem call_leaves_in_place_shortCopy :
    (start .little shortCopy).answer 2 = some (.error (.truncated .copy 4)) ∧
    ((start .little shortCopy).afterCalls 3).registers = ⟨some 2, some 2⟩ ∧
    FailsAt shortCopy (some 2) 4 (.truncated .copy 4) 5 ∧
    (start .little shortCopy).answer 3 = none ∧
    ((start .little shortCopy).afterCalls 3).status ≠ .ended := by
  obtain ⟨-, -, -, hfault, -⟩ := call_leaves_in_place .little shortCopy 2
  obtain ⟨-, -, -, -, hnone, -⟩ := call_leaves_in_place .little shortCopy 3
  have hanswer : (start .little shortCopy).answer 2 = some (.error (.truncated .copy 4)) := rfl
  obtain ⟨hregisters, hfails⟩ := hfault _ hanswer
  exact ⟨hanswer, hregisters, hfails, hnone.mpr (.inr ⟨2, by decide, _, hanswer⟩), by decide⟩

end Decoder

end StageArchive
