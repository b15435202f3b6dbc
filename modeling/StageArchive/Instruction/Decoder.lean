import StageArchive.Instruction.Fault
import StageArchive.Instruction.IndexCode
/-!
# Reading an entity stream

A decoder reads one instruction at a time until it has read the end of the stream or met a fault.
Two registers persist over the whole stream: the property that values go to and the number of bytes
a value has. A fault leaves the registers as they were, and the position at the instruction's
opcode, or after it when only the operand is at fault.
-/

namespace StageArchive

/-- The value of an operand. -/
inductive OperandValue where
  | index (value : UInt32)
  | word (value : UInt32)
  | bytes (value : Bytes)
  deriving DecidableEq, Repr

/-- The value of an index operand. -/
def OperandValue.index? : OperandValue → Option UInt32
  | .index value => some value
  | .word _ | .bytes _ => none

/-- An operand and the number of bytes it takes. -/
structure Operand where
  kind : OperandKind
  value : OperandValue
  length : Nat
  deriving DecidableEq, Repr

/-- An instruction of a stream, at the offset of its opcode byte. -/
structure Instruction where
  offset : Nat
  opcode : Opcode
  operand : Option Operand
  bytes : Bytes
  deriving DecidableEq, Repr

/-- The value of an instruction's operand, where it is an index. -/
def Instruction.index? (instruction : Instruction) : Option UInt32 :=
  instruction.operand.bind (·.value.index?)

/-- The registers of a stream, which start without a value. -/
structure Registers where
  offset : Option UInt32
  length : Option UInt32
  deriving DecidableEq, Repr

/-- Registers without values. -/
def Registers.blank : Registers :=
  ⟨none, none⟩

/-- The registers after an instruction. -/
def Registers.after (registers : Registers) (instruction : Instruction) : Registers :=
  match instruction.opcode with
  | .setOffset => { registers with offset := instruction.index? }
  | .setLength => { registers with length := instruction.index? }
  | _ => registers

/-- Whether there is more to read, or why not. -/
inductive DecoderStatus where
  | reading
  | ended
  | failed
  deriving DecidableEq, Repr

/-- A stream that has been read up to a position. -/
structure Decoder where
  order : ByteOrder
  position : Nat
  rest : Bytes
  registers : Registers
  status : DecoderStatus
  deriving DecidableEq, Repr

namespace Decoder

/-- A decoder before a stream. -/
def start (order : ByteOrder) (stream : Bytes) : Decoder :=
  ⟨order, 0, stream, .blank, .reading⟩

/-- The operand of an instruction whose opcode byte is at the current position, given the bytes
after that byte. -/
def readOperand (decoder : Decoder) (opcode : Opcode) (kind : OperandKind) (bytes : Bytes) :
    Except StreamFault Operand :=
  match kind with
  | .symbol _ | .count | .asset =>
    match IndexCode.decode bytes with
    | .ok (value, length) => .ok ⟨kind, .index value, length⟩
    | .error _ => .error (.indexOverflow (decoder.position + 1))
  | .word =>
    match decoder.order.word? bytes 0 with
    | some value => .ok ⟨kind, .word value, 4⟩
    | none => .error (.truncated opcode decoder.position)
  | .bytes =>
    match decoder.registers.length with
    | none => .error (.missingLength decoder.position)
    | some length =>
      if length.toNat ≤ bytes.length then
        .ok ⟨kind, .bytes (bytes.take length.toNat), length.toNat⟩
      else .error (.truncated opcode decoder.position)

/-- The decoder moved over some bytes to stop at a fault. -/
def fail (decoder : Decoder) (skipped : Nat) : Decoder :=
  { decoder with
    position := decoder.position + skipped
    rest := decoder.rest.drop skipped
    status := .failed }

/-- The decoder after an instruction. -/
def advance (decoder : Decoder) (instruction : Instruction) : Decoder :=
  { decoder with
    position := decoder.position + instruction.bytes.length
    rest := decoder.rest.drop instruction.bytes.length
    registers := decoder.registers.after instruction
    status := if instruction.opcode = .finish then .ended else .reading }

/-- Reads an operand, where the opcode takes one. -/
def readOperand? (decoder : Decoder) (opcode : Opcode) (bytes : Bytes) :
    Except StreamFault (Option Operand) :=
  match opcode.operand? with
  | none => .ok none
  | some kind => (decoder.readOperand opcode kind bytes).map some

/-- Reads the instruction at the current position. -/
def read (decoder : Decoder) : Except StreamFault Instruction × Decoder :=
  match decoder.rest with
  | [] => (.error .missingTerminator, decoder.fail 0)
  | byte :: bytes =>
    if !IndexCode.isOpcodeByte byte then
      (.error (.expectedOpcode byte decoder.position), decoder.fail 0)
    else
      match Opcode.ofByte? byte with
      | none => (.error (.unknownOpcode byte decoder.position), decoder.fail 0)
      | some opcode =>
        match decoder.readOperand? opcode bytes with
        | .error fault => (.error fault, decoder.fail 1)
        | .ok operand =>
          let length := (operand.map (·.length)).getD 0
          let instruction : Instruction :=
            ⟨decoder.position, opcode, operand, byte :: bytes.take length⟩
          (.ok instruction, decoder.advance instruction)

/-- Reads the next instruction; none after the end of the stream or a fault. -/
def next? (decoder : Decoder) : Option (Except StreamFault Instruction × Decoder) :=
  if decoder.status = .reading then some decoder.read else none

/-- How much may still be read: every byte, and one step that may fail. -/
def remaining (decoder : Decoder) : Nat :=
  decoder.rest.length + if decoder.status = .reading then 1 else 0

theorem remaining_fail_lt (decoder : Decoder) (skipped : Nat) (h : decoder.status = .reading) :
    (decoder.fail skipped).remaining < decoder.remaining := by
  have hrest : (decoder.rest.drop skipped).length ≤ decoder.rest.length := by
    rw [List.length_drop]
    exact Nat.sub_le _ _
  simp only [remaining, fail, h, reduceCtorEq, if_false, if_true]
  exact Nat.lt_succ_of_le hrest

theorem remaining_advance_lt (decoder : Decoder) (instruction : Instruction)
    (h : decoder.status = .reading) (hrest : decoder.rest ≠ [])
    (hbytes : instruction.bytes ≠ []) :
    (decoder.advance instruction).remaining < decoder.remaining := by
  have hlength : 0 < decoder.rest.length := List.length_pos_iff.mpr hrest
  have hcount : 0 < instruction.bytes.length := List.length_pos_iff.mpr hbytes
  simp only [remaining, advance, h, List.length_drop, if_true]
  split <;> split <;> omega

theorem remaining_read_lt (decoder : Decoder) (h : decoder.status = .reading) :
    decoder.read.2.remaining < decoder.remaining := by
  unfold read
  split
  · exact remaining_fail_lt _ _ h
  · rename_i byte bytes hrest
    split
    · exact remaining_fail_lt _ _ h
    · split
      · exact remaining_fail_lt _ _ h
      · split
        · exact remaining_fail_lt _ _ h
        · exact remaining_advance_lt _ _ h (by simp [hrest]) (by simp)

/-- Every step from here on, each with the decoder after it. -/
def steps (decoder : Decoder) : List (Except StreamFault Instruction × Decoder) :=
  if h : decoder.status = .reading then
    have := remaining_read_lt decoder h
    decoder.read :: steps decoder.read.2
  else []
termination_by decoder.remaining

/-- The decoder after all its steps. -/
def last (decoder : Decoder) : Decoder :=
  ((decoder.steps.getLast?).map (·.2)).getD decoder

/-- Reads to the end of the stream: the instructions and the decoder after them, or the first
fault. -/
def readAll (decoder : Decoder) : Except StreamFault (List Instruction × Decoder) := do
  let instructions ← decoder.steps.mapM (·.1)
  pure (instructions, decoder.last)

end Decoder

/-- Reads a whole stream, after which nothing may follow but one zero byte. -/
def decodeStream (order : ByteOrder) (stream : Bytes) : Except StreamFault (List Instruction) := do
  let (instructions, decoder) ← (Decoder.start order stream).readAll
  if decoder.rest = [] ∨ decoder.rest = [0] then pure instructions
  else throw (.trailingBytes decoder.position decoder.rest.length)

end StageArchive
