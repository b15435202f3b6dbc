import StageArchive.Proofs.Instruction.Grammar
/-!
# Where a decoder stops

A decoder is asked for one instruction after another, also after the last one. `Follows.answers` says what one
call gives and where it leaves the decoder; there are seven reasons for a call to fail, `FailsAt`, each with a
place in the stream. By induction `reached_afterCalls` says which registers and which status the decoder has
after any number of calls.
-/

namespace StageArchive

/-- The instruction at a place of a stream cannot be read for some fault, and reading stops at a place: the
first of its bytes, or the byte after its opcode where only the operand is at fault. The length register may
have a value. -/
inductive FailsAt (stream : Bytes) (length : Option UInt32) (place : Nat) : StreamFault → Nat → Prop where
  | missingTerminator (h : stream.length ≤ place) :
      FailsAt stream length place .missingTerminator place
  | expectedOpcode (byte : UInt8) (h : stream[place]? = some byte)
      (hdigit : IndexCode.isOpcodeByte byte = false) :
      FailsAt stream length place (.expectedOpcode byte place) place
  | unknownOpcode (byte : UInt8) (h : stream[place]? = some byte)
      (hbyte : IndexCode.isOpcodeByte byte = true) (hunknown : ∀ opcode : Opcode, opcode.toByte ≠ byte) :
      FailsAt stream length place (.unknownOpcode byte place) place
  | indexOverflow (opcode : Opcode) (kind : OperandKind) (offset : Nat)
      (h : stream[place]? = some opcode.toByte) (hkind : opcode.operand? = some kind)
      (hindex : kind.isIndex = true)
      (hgreat : IndexCode.decode (stream.drop (place + 1)) = .error offset) :
      FailsAt stream length place (.indexOverflow (place + 1)) (place + 1)
  | truncatedWord (opcode : Opcode) (h : stream[place]? = some opcode.toByte)
      (hkind : opcode.operand? = some .word) (hshort : stream.length < place + 1 + 4) :
      FailsAt stream length place (.truncated opcode place) (place + 1)
  | missingLength (opcode : Opcode) (h : stream[place]? = some opcode.toByte)
      (hkind : opcode.operand? = some .bytes) (hlength : length = none) :
      FailsAt stream length place (.missingLength place) (place + 1)
  | truncatedBytes (opcode : Opcode) (count : UInt32) (h : stream[place]? = some opcode.toByte)
      (hkind : opcode.operand? = some .bytes) (hlength : length = some count)
      (hshort : stream.length < place + 1 + count.toNat) :
      FailsAt stream length place (.truncated opcode place) (place + 1)

/-- The operand of the last of some instructions that has an opcode. -/
def latestOperand (opcode : Opcode) (instructions : List Instruction) : Option UInt32 :=
  ((instructions.filter (·.opcode = opcode)).getLast?).bind (·.index?)

/-- A register has the operand of the last instruction that set it. -/
theorem Registers.afterAll_eq_latest (instructions : List Instruction) :
    Registers.blank.afterAll instructions =
      ⟨latestOperand .setOffset instructions, latestOperand .setLength instructions⟩ := by
  -- The last instruction is the one to look at, so the induction takes instructions from the end.
  induction hlength : instructions.length generalizing instructions with
  | zero =>
      rw [List.length_eq_zero_iff.mp hlength]
      rfl
  | succ count ih =>
      obtain ⟨front, last, rfl⟩ : ∃ front last, instructions = front ++ [last] :=
        ⟨_, _, (List.dropLast_concat_getLast (List.ne_nil_of_length_eq_add_one hlength)).symm⟩
      rw [List.length_append, List.length_singleton] at hlength
      rw [Registers.afterAll_append, ih front (Nat.succ.inj hlength)]
      show Registers.after _ last = _
      obtain ⟨offset, opcode, operand, bytes⟩ := last
      cases opcode <;> simp [latestOperand, Registers.after, List.filter_append]

/-- An instruction has an index where its opcode takes one. -/
theorem Instruction.Spelled.exists_index {order : ByteOrder} {registers : Registers}
    {instruction : Instruction} (h : instruction.Spelled order registers) {kind : OperandKind}
    (hkind : instruction.opcode.operand? = some kind) (hindex : kind.isIndex = true) :
    ∃ value, instruction.index? = some value := by
  obtain ⟨offset, opcode, operand, bytes⟩ := instruction
  unfold Instruction.Spelled at h
  rw [hkind] at h
  cases operand with
  | none => exact h.elim
  | some operand =>
      obtain ⟨found, value, length⟩ := operand
      obtain ⟨rfl, tail, -, -, hspells⟩ := h
      cases value with
      | index value => exact ⟨value, rfl⟩
      | word | bytes => cases found <;> first | exact hspells.elim | cases hindex

namespace Decoder

/-- Asks for the next instruction, whatever was read before. -/
def call (decoder : Decoder) : Option (Except StreamFault Instruction) × Decoder :=
  match decoder.next? with
  | none => (none, decoder)
  | some (outcome, after) => (some outcome, after)

/-- The decoder after some calls. -/
def afterCalls (decoder : Decoder) : Nat → Decoder
  | 0 => decoder
  | count + 1 => (decoder.afterCalls count).call.2

/-- What a call gives that has some calls before it. -/
def answer (decoder : Decoder) (count : Nat) : Option (Except StreamFault Instruction) :=
  (decoder.afterCalls count).call.1

/-- The instructions that some calls give. -/
def returned (decoder : Decoder) (count : Nat) : List Instruction :=
  (List.range count).filterMap fun earlier => (decoder.answer earlier).bind (·.toOption)

/-- One of some calls gave the instruction that ends the stream. -/
def GaveEnd (decoder : Decoder) (count : Nat) : Prop :=
  ∃ earlier < count, ∃ instruction : Instruction,
    decoder.answer earlier = some (.ok instruction) ∧ instruction.opcode = .finish

/-- One of some calls gave a fault. -/
def GaveFault (decoder : Decoder) (count : Nat) : Prop :=
  ∃ earlier < count, ∃ fault, decoder.answer earlier = some (.error fault)

/-- A decoder of a stream has what lies behind its position still to read. -/
structure Follows (decoder : Decoder) (stream : Bytes) : Prop where
  rest_eq : decoder.rest = stream.drop decoder.position
  position_le : decoder.position ≤ stream.length

/-- What a call gives and where it leaves the decoder of a stream. -/
inductive Answers (decoder : Decoder) (stream : Bytes) :
    Option (Except StreamFault Instruction) × Decoder → Prop where
  /-- Nothing is read any more, and nothing changes. -/
  | stopped (h : decoder.status ≠ .reading) : Answers decoder stream (none, decoder)
  /-- The instruction at the position is read. -/
  | read (instruction : Instruction) (h : decoder.status = .reading)
      (hoffset : instruction.offset = decoder.position)
      (hspelled : instruction.Spelled decoder.order decoder.registers)
      (hroom : decoder.position + instruction.bytes.length ≤ stream.length)
      (hbytes : instruction.bytes =
        (stream.drop decoder.position).take instruction.bytes.length) :
      Answers decoder stream (some (.ok instruction), decoder.advance instruction)
  /-- There is a fault. -/
  | failed (fault : StreamFault) (skipped : Nat) (h : decoder.status = .reading)
      (hroom : decoder.position + skipped ≤ stream.length)
      (hfails : FailsAt stream decoder.registers.length decoder.position fault
        (decoder.position + skipped)) :
      Answers decoder stream (some (.error fault), decoder.fail skipped)

variable {decoder : Decoder} {stream : Bytes}

/-- A decoder follows its stream from the start. -/
theorem follows_start (order : ByteOrder) (stream : Bytes) : (start order stream).Follows stream :=
  ⟨rfl, Nat.zero_le _⟩

/-- A word that is not there lacks bytes. -/
theorem length_lt_of_word? {order : ByteOrder} {bytes : Bytes} (h : order.word? bytes 0 = none) :
    bytes.length < 4 := by
  unfold ByteOrder.word? at h
  rw [List.drop_zero] at h
  match bytes with
  | [] | [_] | [_, _] | [_, _, _] => simp
  | _ :: _ :: _ :: _ :: _ => cases h

/-- An operand cannot be read for a fault behind its opcode. -/
theorem failsAt_of_readOperand {opcode : Opcode} {kind : OperandKind} {bytes : Bytes}
    {fault : StreamFault} (hopcode : stream[decoder.position]? = some opcode.toByte)
    (hbytes : bytes = stream.drop (decoder.position + 1)) (hkind : opcode.operand? = some kind)
    (h : decoder.readOperand opcode kind bytes = .error fault) :
    FailsAt stream decoder.registers.length decoder.position fault (decoder.position + 1) := by
  have hplace := (List.getElem?_eq_some_iff.mp hopcode).1
  have hlength : bytes.length = stream.length - (decoder.position + 1) := by
    rw [hbytes, List.length_drop]
  unfold readOperand at h
  cases kind with
  | symbol | count | asset =>
      dsimp only at h
      split at h
      · cases h
      · rename_i offset hread
        cases h
        exact .indexOverflow opcode _ offset hopcode hkind rfl (hbytes ▸ hread)
  | word =>
      dsimp only at h
      split at h
      · cases h
      · rename_i hword
        cases h
        have hshort := length_lt_of_word? hword
        exact .truncatedWord opcode hopcode hkind (by omega)
  | bytes =>
      dsimp only at h
      split at h
      · rename_i hnone
        cases h
        exact .missingLength opcode hopcode hkind hnone
      · rename_i count hsome
        split at h
        · cases h
        · rename_i hshort
          cases h
          exact .truncatedBytes opcode count hopcode hkind hsome (by omega)

/-- An operand that an opcode takes cannot be read for a fault behind the opcode. -/
theorem failsAt_of_readOperand? {opcode : Opcode} {bytes : Bytes} {fault : StreamFault}
    (hopcode : stream[decoder.position]? = some opcode.toByte)
    (hbytes : bytes = stream.drop (decoder.position + 1))
    (h : decoder.readOperand? opcode bytes = .error fault) :
    FailsAt stream decoder.registers.length decoder.position fault (decoder.position + 1) := by
  unfold readOperand? at h
  split at h
  · cases h
  · rename_i kind hkind
    cases hfound : decoder.readOperand opcode kind bytes with
    | ok operand =>
        rw [hfound] at h
        cases h
    | error other =>
        rw [hfound] at h
        cases h
        exact failsAt_of_readOperand hopcode hbytes hkind hfound

/-- The first byte that is not read yet, and the bytes behind it. -/
theorem Follows.rest_cons (h : decoder.Follows stream) {byte : UInt8} {bytes : Bytes}
    (hrest : decoder.rest = byte :: bytes) :
    stream[decoder.position]? = some byte ∧ bytes = stream.drop (decoder.position + 1) := by
  have hdrop := h.rest_eq.symm.trans hrest
  constructor
  · rw [← Nat.add_zero decoder.position, ← List.getElem?_drop, hdrop]
    rfl
  · rw [← List.drop_drop, hdrop]
    rfl

/-- Where no instruction can be read the decoder stops for one of the reasons to do so, and keeps its
registers. -/
theorem Follows.failsAt (h : decoder.Follows stream) {fault : StreamFault} {after : Decoder}
    (hread : decoder.read = (.error fault, after)) :
    ∃ skipped, after = decoder.fail skipped ∧ decoder.position + skipped ≤ stream.length ∧
      FailsAt stream decoder.registers.length decoder.position fault
        (decoder.position + skipped) := by
  -- A byte is looked for, then whether it is an opcode, and which one. Only for the operand is it passed.
  unfold read at hread
  split at hread
  · rename_i hrest
    cases hread
    have hend : stream.length ≤ decoder.position :=
      List.drop_eq_nil_iff.mp (h.rest_eq.symm.trans hrest)
    exact ⟨0, rfl, h.position_le, .missingTerminator hend⟩
  · rename_i byte bytes hrest
    obtain ⟨hbyte, hbytes⟩ := h.rest_cons hrest
    have hplace := (List.getElem?_eq_some_iff.mp hbyte).1
    split at hread
    · rename_i hdigit
      cases hread
      exact ⟨0, rfl, h.position_le, .expectedOpcode byte hbyte (by simpa using hdigit)⟩
    · rename_i hopcode
      split at hread
      · rename_i hnone
        cases hread
        refine ⟨0, rfl, h.position_le, .unknownOpcode byte hbyte (by simpa using hopcode) ?_⟩
        rintro opcode rfl
        rw [Opcode.ofByte?_toByte] at hnone
        cases hnone
      · rename_i opcode hsome
        rw [← Opcode.toByte_of_ofByte? hsome] at hbyte
        split at hread
        · rename_i hoperand
          cases hread
          exact ⟨1, rfl, hplace, failsAt_of_readOperand? hbyte hbytes hoperand⟩
        · cases hread

/-- What a call gives. -/
theorem Follows.answers (h : decoder.Follows stream) : decoder.Answers stream decoder.call := by
  unfold call next?
  by_cases hreading : decoder.status = .reading
  · rw [if_pos hreading]
    dsimp only
    rcases hread : decoder.read with ⟨outcome, after⟩
    cases outcome with
    | error fault =>
        obtain ⟨skipped, rfl, hroom, hfails⟩ := h.failsAt hread
        exact .failed fault skipped hreading hroom hfails
    | ok instruction =>
        obtain ⟨hoffset, hspelled, rfl, rest, hrest⟩ := eq_append_of_read hread
        have hdrop := h.rest_eq.symm.trans hrest
        have hlength := congrArg List.length hdrop
        have hinside := h.position_le
        rw [List.length_drop, List.length_append] at hlength
        refine .read instruction hreading hoffset hspelled (by omega) ?_
        rw [hdrop, List.take_left]
  · rw [if_neg hreading]
    exact .stopped hreading

/-- A call goes on in the stream. -/
theorem Follows.call (h : decoder.Follows stream) : decoder.call.2.Follows stream := by
  have hanswers := h.answers
  generalize decoder.call = called at hanswers
  cases hanswers with
  | stopped => exact h
  | read instruction _ _ _ hroom =>
      refine ⟨?_, hroom⟩
      show decoder.rest.drop _ = _
      rw [h.rest_eq, List.drop_drop]
      rfl
  | failed fault skipped _ hroom =>
      refine ⟨?_, hroom⟩
      show decoder.rest.drop _ = _
      rw [h.rest_eq, List.drop_drop]
      rfl

/-- All calls go on in the stream. -/
theorem Follows.afterCalls (h : decoder.Follows stream) (count : Nat) :
    (decoder.afterCalls count).Follows stream := by
  induction count with
  | zero => exact h
  | succ count ih => exact ih.call

/-- What the call after some calls gives, and the decoder after it. -/
theorem Follows.answers_after {count : Nat} (h : (decoder.afterCalls count).Follows stream) :
    (decoder.afterCalls count).Answers stream
      (decoder.answer count, decoder.afterCalls (count + 1)) :=
  h.answers

/-- A call does not move the decoder back. -/
theorem Follows.position_le_call (h : decoder.Follows stream) :
    decoder.position ≤ decoder.call.2.position := by
  have hanswers := h.answers
  generalize decoder.call = called at hanswers
  cases hanswers with
  | stopped => exact Nat.le_refl _
  | read instruction => exact Nat.le_add_right _ _
  | failed fault skipped => exact Nat.le_add_right _ _

/-- The instructions of one more call. -/
theorem returned_succ (decoder : Decoder) (count : Nat) :
    decoder.returned (count + 1) =
      decoder.returned count ++ ((decoder.answer count).bind (·.toOption)).toList := by
  unfold returned
  rw [List.range_succ, List.filterMap_append]
  cases h : (decoder.answer count).bind (·.toOption) with
  | none => simp only [List.filterMap_cons, h, List.filterMap_nil, Option.toList_none]
  | some instruction => simp only [List.filterMap_cons, h, List.filterMap_nil, Option.toList_some]

/-- The end of the stream is given by the last call or before. -/
theorem gaveEnd_succ (decoder : Decoder) (count : Nat) :
    decoder.GaveEnd (count + 1) ↔ decoder.GaveEnd count ∨ ∃ instruction : Instruction,
      decoder.answer count = some (.ok instruction) ∧ instruction.opcode = .finish :=
  Nat.exists_lt_succ_right

/-- A fault is given by the last call or before. -/
theorem gaveFault_succ (decoder : Decoder) (count : Nat) :
    decoder.GaveFault (count + 1) ↔
      decoder.GaveFault count ∨ ∃ fault, decoder.answer count = some (.error fault) :=
  Nat.exists_lt_succ_right

/-- What is left of the calls in a decoder: its registers, and whether and why it does not read on. -/
structure Reached (decoder : Decoder) (count : Nat) : Prop where
  registers_eq : (decoder.afterCalls count).registers =
    decoder.registers.afterAll (decoder.returned count)
  ended_iff : (decoder.afterCalls count).status = .ended ↔ decoder.GaveEnd count
  failed_iff : (decoder.afterCalls count).status = .failed ↔ decoder.GaveFault count

/-- One more call leaves a decoder as the answers say, if the calls before it did. -/
theorem Reached.succ {count : Nat} (h : decoder.Reached count)
    (hfollows : (decoder.afterCalls count).Follows stream) : decoder.Reached (count + 1) := by
  obtain ⟨hregisters, hended, hfailed⟩ := h
  have hanswers := hfollows.answers_after
  generalize hanswer : decoder.answer count = answer at hanswers
  generalize hafter : decoder.afterCalls (count + 1) = after at hanswers
  cases hanswers with
  | stopped =>
      refine ⟨?_, ?_, ?_⟩
      · rw [returned_succ, hanswer, hafter]
        simpa using hregisters
      · rw [gaveEnd_succ, hanswer, hafter]
        simpa using hended
      · rw [gaveFault_succ, hanswer, hafter]
        simpa using hfailed
  | read instruction hreading =>
      rw [hreading] at hended hfailed
      refine ⟨?_, ?_, ?_⟩
      · rw [returned_succ, hanswer, hafter]
        show Registers.after _ instruction = _
        rw [hregisters, Option.bind_some, Except.toOption, Option.toList_some,
          Registers.afterAll_append]
        rfl
      · rw [gaveEnd_succ, hanswer, hafter, ← hended]
        simp [advance]
      · rw [gaveFault_succ, hanswer, hafter, ← hfailed]
        by_cases hfinish : instruction.opcode = .finish <;> simp [advance, hfinish]
  | failed fault skipped hreading =>
      rw [hreading] at hended hfailed
      refine ⟨?_, ?_, ?_⟩
      · rw [returned_succ, hanswer, hafter]
        simpa [Except.toOption, fail] using hregisters
      · rw [gaveEnd_succ, hanswer, hafter, ← hended]
        simp [fail]
      · rw [gaveFault_succ, hanswer, hafter]
        simp [fail]

/-- The answers say how a decoder is left that was before its stream. -/
theorem reached_afterCalls (order : ByteOrder) (stream : Bytes) (count : Nat) :
    (start order stream).Reached count := by
  induction count with
  | zero =>
      refine ⟨rfl, iff_of_false ?_ ?_, iff_of_false ?_ ?_⟩
      · exact DecoderStatus.noConfusion
      · exact fun ⟨_, hearlier, _⟩ => Nat.not_lt_zero _ hearlier
      · exact DecoderStatus.noConfusion
      · exact fun ⟨_, hearlier, _⟩ => Nat.not_lt_zero _ hearlier
  | succ count ih => exact ih.succ ((follows_start order stream).afterCalls count)

/-- What a call gives lies at the position before it, and is spelled there. -/
theorem Follows.read_of_answer {count : Nat} (h : (decoder.afterCalls count).Follows stream)
    {instruction : Instruction} (hanswer : decoder.answer count = some (.ok instruction)) :
    let before := decoder.afterCalls count
    instruction.offset = before.position ∧
      instruction.Spelled before.order before.registers ∧
      instruction.bytes = (stream.drop before.position).take instruction.bytes.length ∧
      decoder.afterCalls (count + 1) = before.advance instruction := by
  intro before
  have hanswers := h.answers_after
  rw [hanswer] at hanswers
  generalize decoder.afterCalls (count + 1) = after at hanswers
  cases hanswers with
  | read _ _ hoffset hspelled _ hbytes => exact ⟨hoffset, hspelled, hbytes, rfl⟩

/-- A fault leaves the registers, and the position where the fault is. -/
theorem Follows.failsAt_of_answer {count : Nat} (h : (decoder.afterCalls count).Follows stream)
    {fault : StreamFault} (hanswer : decoder.answer count = some (.error fault)) :
    let before := decoder.afterCalls count
    let after := decoder.afterCalls (count + 1)
    after.registers = before.registers ∧
      FailsAt stream before.registers.length before.position fault after.position := by
  intro before after
  have hanswers := h.answers_after
  rw [hanswer] at hanswers
  show (decoder.afterCalls (count + 1)).registers = _ ∧
    FailsAt stream _ _ fault (decoder.afterCalls (count + 1)).position
  generalize decoder.afterCalls (count + 1) = last at hanswers
  cases hanswers with
  | failed _ _ _ _ hfails => exact ⟨rfl, hfails⟩

/-- Nothing is given where nothing is read any more, and then nothing changes. -/
theorem answer_eq_none_iff (decoder : Decoder) (count : Nat) :
    decoder.answer count = none ↔ (decoder.afterCalls count).status ≠ .reading := by
  unfold answer call next?
  by_cases hreading : (decoder.afterCalls count).status = .reading
  · rw [if_pos hreading]
    exact iff_of_false (Option.some_ne_none _) (fun h => h hreading)
  · rw [if_neg hreading]
    exact iff_of_true rfl hreading

/-- A call that gives nothing changes nothing. -/
theorem afterCalls_succ_of_none {count : Nat} (h : decoder.answer count = none) :
    decoder.afterCalls (count + 1) = decoder.afterCalls count := by
  have hstopped := (answer_eq_none_iff decoder count).mp h
  show (decoder.afterCalls count).call.2 = _
  unfold call next?
  rw [if_neg hstopped]

/-- Of the instructions that calls gave, those that set a register have an index. -/
theorem Follows.exists_index (h : decoder.Follows stream) {count : Nat} {instruction : Instruction}
    (hmem : instruction ∈ decoder.returned count)
    (hset : instruction.opcode = .setOffset ∨ instruction.opcode = .setLength) :
    ∃ value, instruction.index? = some value := by
  obtain ⟨earlier, -, hgiven⟩ := List.mem_filterMap.mp hmem
  obtain ⟨outcome, hanswer, hok⟩ := Option.bind_eq_some_iff.mp hgiven
  cases outcome with
  | error fault => cases hok
  | ok found =>
      cases hok
      obtain ⟨-, hspelled, -⟩ := (h.afterCalls earlier).read_of_answer hanswer
      rcases hset with hset | hset
      · exact hspelled.exists_index (congrArg Opcode.operand? hset) rfl
      · exact hspelled.exists_index (congrArg Opcode.operand? hset) rfl

/-- Nothing is given after the end of the stream or a fault, and only then. -/
theorem Reached.answer_eq_none_iff {count : Nat} (h : decoder.Reached count) :
    decoder.answer count = none ↔ decoder.GaveEnd count ∨ decoder.GaveFault count := by
  rw [Decoder.answer_eq_none_iff, ← h.ended_iff, ← h.failed_iff]
  cases (decoder.afterCalls count).status <;> simp

end Decoder

end StageArchive
