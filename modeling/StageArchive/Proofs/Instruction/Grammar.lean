import StageArchive.Instruction.Decoder
import StageArchive.Proofs.IndexCode
import StageArchive.Proofs.Outcome
import StageArchive.Proofs.Word
/-!
# The grammar of entity streams

`Spelled order registers position instructions` says that instructions lie one after the other from
a position on and that the bytes of each spell its opcode and its operand, where the number of bytes
that a `copy` takes is the one in the length register. The main statement is `decodeStream_eq_ok_iff`:
a stream decodes exactly when it consists of such instructions, of which the last and no other ends
the stream, and of at most one zero byte after them.
-/

namespace StageArchive

/-- The registers after several instructions. -/
def Registers.afterAll (registers : Registers) (instructions : List Instruction) : Registers :=
  instructions.foldl Registers.after registers

/-- The bytes of instructions, one after the other. -/
def streamBytes (instructions : List Instruction) : Bytes :=
  instructions.flatMap (·.bytes)

/-- The bytes spell an operand, given the registers before it. -/
def Operand.Spells (order : ByteOrder) (registers : Registers) (operand : Operand) (bytes : Bytes) :
    Prop :=
  operand.length = bytes.length ∧
    match operand.kind, operand.value with
    | .symbol _, .index value | .count, .index value | .asset, .index value =>
      IndexCode.Spells value bytes
    | .word, .word value => bytes = order.encode value
    | .bytes, .bytes value =>
      bytes = value ∧ ∃ length, registers.length = some length ∧ length.toNat = value.length
    | _, _ => False

/-- The bytes of an instruction spell its opcode and the operand that the opcode takes. -/
def Instruction.Spelled (order : ByteOrder) (registers : Registers) (instruction : Instruction) :
    Prop :=
  match instruction.opcode.operand?, instruction.operand with
  | none, none => instruction.bytes = [instruction.opcode.toByte]
  | some kind, some operand =>
    operand.kind = kind ∧ ∃ tail, instruction.bytes = instruction.opcode.toByte :: tail ∧
      operand.Spells order registers tail
  | _, _ => False

/-- The instruction at an offset whose operand is an index without leading zeros. -/
def Instruction.ofIndex (offset : Nat) (opcode : Opcode) (kind : OperandKind) (value : UInt32) :
    Instruction :=
  ⟨offset, opcode, some ⟨kind, .index value, (IndexCode.encode value).length⟩,
    opcode.toByte :: IndexCode.encode value⟩

/-- Instructions lie one after the other from a position on, and the bytes of each spell it. -/
def Spelled (order : ByteOrder) : Registers → Nat → List Instruction → Prop
  | _, _, [] => True
  | registers, position, instruction :: rest =>
    instruction.offset = position ∧ instruction.Spelled order registers ∧
      Spelled order (registers.after instruction) (position + instruction.bytes.length) rest

/-- The last instruction ends the stream, and no other does. -/
def IsFinished (instructions : List Instruction) : Prop :=
  ∃ front last, instructions = front ++ [last] ∧ last.opcode = .finish ∧
    ∀ instruction ∈ front, instruction.opcode ≠ .finish

/-- Nothing, or the zero byte that makes the length of a chunk even. -/
def IsPadding (bytes : Bytes) : Prop :=
  bytes = [] ∨ bytes = [0]

@[simp]
theorem streamBytes_nil : streamBytes [] = [] := rfl

@[simp]
theorem streamBytes_cons (instruction : Instruction) (rest : List Instruction) :
    streamBytes (instruction :: rest) = instruction.bytes ++ streamBytes rest := rfl

@[simp]
theorem streamBytes_append (first second : List Instruction) :
    streamBytes (first ++ second) = streamBytes first ++ streamBytes second :=
  List.flatMap_append

@[simp]
theorem Registers.afterAll_nil (registers : Registers) : registers.afterAll [] = registers := rfl

@[simp]
theorem Registers.afterAll_cons (registers : Registers) (instruction : Instruction)
    (rest : List Instruction) :
    registers.afterAll (instruction :: rest) = (registers.after instruction).afterAll rest := rfl

@[simp]
theorem Registers.afterAll_append (registers : Registers) (first second : List Instruction) :
    registers.afterAll (first ++ second) = (registers.afterAll first).afterAll second :=
  List.foldl_append

/-- Instructions are spelled when a front part and the rest are, each from where it begins. -/
theorem spelled_append {order : ByteOrder} {registers : Registers} {position : Nat}
    {first second : List Instruction} :
    Spelled order registers position (first ++ second) ↔
      Spelled order registers position first ∧
        Spelled order (registers.afterAll first) (position + (streamBytes first).length) second := by
  -- Where an instruction begins and what its registers are depends on all before it.
  induction first generalizing registers position with
  | nil => simp [Spelled]
  | cons instruction rest ih =>
      simp only [List.cons_append, Spelled, ih, streamBytes_cons, Registers.afterAll_cons,
        List.length_append, and_assoc, Nat.add_assoc]

/-- The byte of an opcode is no index digit. -/
theorem Opcode.isOpcodeByte_toByte (opcode : Opcode) :
    IndexCode.isOpcodeByte opcode.toByte = true := by
  cases opcode <;> rfl

/-- The byte that stands for an opcode is its byte. -/
theorem Opcode.toByte_of_ofByte? {byte : UInt8} {opcode : Opcode} (h : ofByte? byte = some opcode) :
    opcode.toByte = byte := by
  unfold ofByte? at h
  have hfound := List.find?_some h
  exact eq_of_beq hfound

/-- The bytes of an instruction begin with its opcode. -/
theorem Instruction.Spelled.bytes_eq {order : ByteOrder} {registers : Registers}
    {instruction : Instruction} (h : instruction.Spelled order registers) :
    ∃ tail, instruction.bytes = instruction.opcode.toByte :: tail := by
  unfold Instruction.Spelled at h
  split at h
  · exact ⟨[], h⟩
  · obtain ⟨_, tail, htail, _⟩ := h
    exact ⟨tail, htail⟩
  · exact h.elim

/-- An instruction with an index operand is spelled when its opcode takes such an operand. -/
theorem Instruction.spelled_ofIndex {order : ByteOrder} {registers : Registers} {offset : Nat}
    {opcode : Opcode} {kind : OperandKind} {value : UInt32} (hkind : opcode.operand? = some kind)
    (hindex : kind.isIndex = true) :
    (ofIndex offset opcode kind value).Spelled order registers := by
  have hspells := IndexCode.spells_encode value
  simp only [Spelled, ofIndex, hkind, true_and]
  refine ⟨_, rfl, rfl, ?_⟩
  cases kind with
  | symbol | count | asset => exact hspells
  | word | bytes => cases hindex

/-- Spelled instructions and what may follow a stream end an index before them. -/
theorem Spelled.endIndex {order : ByteOrder} {registers : Registers} {position : Nat}
    {instruction : Instruction} {rest : List Instruction} (pad : Bytes)
    (h : Spelled order registers position (instruction :: rest)) :
    IndexCode.EndIndex (streamBytes (instruction :: rest) ++ pad) := by
  obtain ⟨tail, htail⟩ := h.2.1.bytes_eq
  rw [streamBytes_cons, htail]
  exact IndexCode.endIndex_cons instruction.opcode.isOpcodeByte_toByte

namespace Decoder

/-- An operand is read where its bytes stand, when what follows ends an index. -/
theorem readOperand_append {decoder : Decoder} (opcode : Opcode) {operand : Operand}
    {bytes rest : Bytes} (h : operand.Spells decoder.order decoder.registers bytes)
    (hrest : operand.kind.isIndex = true → IndexCode.EndIndex rest) :
    decoder.readOperand opcode operand.kind (bytes ++ rest) = .ok operand := by
  obtain ⟨kind, value, length⟩ := operand
  obtain ⟨hlength, hvalue⟩ := h
  obtain rfl : length = bytes.length := hlength
  dsimp only at hvalue hrest ⊢
  split at hvalue
  all_goals try exact hvalue.elim
  -- Three kinds of operands are indices, one is a word and one is raw bytes.
  case h_4 =>
    subst hvalue
    simp only [readOperand, ByteOrder.word?_encode, ByteOrder.length_encode]
  case h_5 =>
    obtain ⟨rfl, register, hregister, hcount⟩ := hvalue
    simp only [readOperand, hregister, hcount, List.length_append, Nat.le_add_right, if_true,
      List.take_left]
  all_goals
    have hread := IndexCode.decode_eq_ok_iff.mpr ⟨bytes, rest, rfl, hvalue, hrest rfl, rfl⟩
    simp only [readOperand, hread]

/-- The bytes from which an operand is read begin with bytes that spell it. -/
theorem eq_append_of_readOperand {decoder : Decoder} {opcode : Opcode} {kind : OperandKind}
    {bytes : Bytes} {operand : Operand} (h : decoder.readOperand opcode kind bytes = .ok operand) :
    operand.kind = kind ∧ ∃ tail rest, bytes = tail ++ rest ∧
      operand.Spells decoder.order decoder.registers tail := by
  unfold readOperand at h
  cases kind with
  | symbol | count | asset =>
      dsimp only at h
      split at h
      · rename_i hread
        cases h
        obtain ⟨digits, rest, hbytes, hspells, -, hlength⟩ := IndexCode.decode_eq_ok_iff.mp hread
        exact ⟨rfl, digits, rest, hbytes, hlength.symm, hspells⟩
      · cases h
  | word =>
      dsimp only at h
      split at h
      · rename_i value hread
        cases h
        have hbytes := ByteOrder.eq_encode_of_word? hread
        rw [List.drop_zero] at hbytes
        exact ⟨rfl, _, _, hbytes, (ByteOrder.length_encode _ _).symm, rfl⟩
      · cases h
  | bytes =>
      dsimp only at h
      split at h
      · cases h
      · rename_i length hregister
        split at h
        · rename_i hfits
          cases h
          have hlength : (bytes.take length.toNat).length = length.toNat := by
            rw [List.length_take]
            exact Nat.min_eq_left hfits
          exact ⟨rfl, _, _, (List.take_append_drop length.toNat bytes).symm, hlength.symm, rfl,
            length, hregister, hlength.symm⟩
        · cases h

/-- A spelled instruction is read where its bytes stand, when what follows ends an index. -/
theorem read_append {decoder : Decoder} {instruction : Instruction} {rest : Bytes}
    (hbytes : decoder.rest = instruction.bytes ++ rest)
    (hposition : instruction.offset = decoder.position)
    (h : instruction.Spelled decoder.order decoder.registers)
    (hrest : instruction.opcode ≠ .finish → IndexCode.EndIndex rest) :
    decoder.read = (.ok instruction, decoder.advance instruction) := by
  obtain ⟨offset, opcode, operand, bytes⟩ := instruction
  obtain rfl : offset = decoder.position := hposition
  dsimp only [Instruction.Spelled] at h hbytes hrest
  have hopcode := opcode.isOpcodeByte_toByte
  split at h
  · rename_i hnone
    subst h
    rw [List.cons_append, List.nil_append] at hbytes
    simp only [read, hbytes, hopcode, Opcode.ofByte?_toByte, readOperand?, hnone, Bool.not_true,
      Option.map_none, Option.getD_none, List.take_zero]
    rfl
  · rename_i kind operand hkind
    obtain ⟨rfl, tail, rfl, hspells⟩ := h
    rw [List.cons_append] at hbytes
    have hfinish : opcode ≠ .finish := by
      rintro rfl
      cases hkind
    have hread := readOperand_append opcode hspells (fun _ => hrest hfinish)
    simp only [read, hbytes, hopcode, Opcode.ofByte?_toByte, readOperand?, hkind, hread, Except.map,
      Bool.not_true, Option.map_some, Option.getD_some, hspells.1, List.take_left]
    rfl
  · exact h.elim

/-- What is read as an instruction is spelled, and the decoder stands after its bytes. -/
theorem eq_append_of_read {decoder after : Decoder} {instruction : Instruction}
    (h : decoder.read = (.ok instruction, after)) :
    instruction.offset = decoder.position ∧
      instruction.Spelled decoder.order decoder.registers ∧
      after = decoder.advance instruction ∧ ∃ rest, decoder.rest = instruction.bytes ++ rest := by
  unfold read at h
  split at h
  · cases h
  · rename_i byte bytes hbytes
    split at h
    · cases h
    · split at h
      · cases h
      · rename_i opcode hopcode
        split at h
        · cases h
        · rename_i operand hoperand
          cases h
          have hbyte := Opcode.toByte_of_ofByte? hopcode
          refine ⟨rfl, ?_, rfl, ?_⟩
          · unfold readOperand? at hoperand
            unfold Instruction.Spelled
            split at hoperand
            · rename_i hkind
              cases hoperand
              simp only [hkind, Option.map_none, Option.getD_none, List.take_zero, hbyte]
            · rename_i kind hkind
              cases hread : decoder.readOperand opcode kind bytes with
              | error fault =>
                  rw [hread] at hoperand
                  cases hoperand
              | ok read =>
                  rw [hread] at hoperand
                  cases hoperand
                  obtain ⟨rfl, tail, rest, rfl, hspells⟩ := eq_append_of_readOperand hread
                  simp only [hkind, Option.map_some, Option.getD_some, hspells.1, List.take_left,
                    hbyte]
                  exact ⟨trivial, tail, rfl, hspells⟩
          · exact ⟨bytes.drop ((operand.map (·.length)).getD 0), by
              rw [List.cons_append, List.take_append_drop, hbytes]⟩

/-- A decoder has ended behind the instruction that ends the stream, and reads on behind all others. -/
theorem status_advance (decoder : Decoder) (instruction : Instruction) :
    (decoder.advance instruction).status = .reading ↔ instruction.opcode ≠ .finish := by
  rw [advance]
  split <;> simp_all

/-- The steps of a decoder that reads are its next step and those after it. -/
theorem steps_of_reading {decoder : Decoder} (h : decoder.status = .reading) :
    decoder.steps = decoder.read :: decoder.read.2.steps := by
  rw [steps, dif_pos h]

/-- Nothing is read after the end of a stream or a fault. -/
theorem readAll_of_status_ne {decoder : Decoder} (h : decoder.status ≠ .reading) :
    decoder.readAll = .ok ([], decoder) := by
  have hsteps : decoder.steps = [] := by
    rw [steps, dif_neg h]
  simp only [readAll, last, hsteps]
  rfl

/-- A fault of the next instruction is the fault of all reading. -/
theorem readAll_of_error {decoder after : Decoder} {fault : StreamFault}
    (h : decoder.status = .reading) (hread : decoder.read = (.error fault, after)) :
    decoder.readAll = .error fault := by
  rw [readAll, steps_of_reading h, hread]
  rfl

/-- The last decoder of all steps is the last one from the next step on. -/
theorem last_of_read {decoder : Decoder} (h : decoder.status = .reading) :
    decoder.last = decoder.read.2.last := by
  simp only [last]
  rw [steps_of_reading h]
  cases hrest : decoder.read.2.steps with
  | nil => rfl
  | cons step rest => rfl

/-- Reading goes on after the next instruction. -/
theorem readAll_of_ok {decoder after : Decoder} {instruction : Instruction}
    (h : decoder.status = .reading) (hread : decoder.read = (.ok instruction, after)) :
    decoder.readAll = after.readAll.map fun (rest, last) => (instruction :: rest, last) := by
  have hlast := last_of_read h
  rw [hread] at hlast
  rw [readAll, readAll, hlast, steps_of_reading h, hread, List.mapM_cons]
  cases hrest : after.steps.mapM (·.1) with
  | error fault => rfl
  | ok rest => rfl

end Decoder

/-- A finished list is a single end of the stream, or another instruction before a finished list. -/
theorem isFinished_cons {instruction : Instruction} {rest : List Instruction} :
    IsFinished (instruction :: rest) ↔
      (instruction.opcode = .finish ∧ rest = []) ∨
        (instruction.opcode ≠ .finish ∧ IsFinished rest) := by
  constructor
  · intro hparts
    obtain ⟨front, last, heq, hlast, hfront⟩ := hparts
    cases front with
    | nil =>
        cases heq
        exact .inl ⟨hlast, rfl⟩
    | cons first front =>
        cases heq
        exact .inr ⟨hfront _ (List.mem_cons_self ..), front, last, rfl, hlast,
          fun other hother => hfront other (List.mem_cons_of_mem _ hother)⟩
  · intro hparts
    rcases hparts with ⟨hlast, rfl⟩ | ⟨hfirst, front, last, rfl, hlast, hfront⟩
    · exact ⟨[], instruction, rfl, hlast, fun other hother => absurd hother List.not_mem_nil⟩
    · refine ⟨instruction :: front, last, rfl, hlast, ?_⟩
      intro other hother
      cases hother with
      | head => exact hfirst
      | tail _ hother => exact hfront other hother

/-- No instructions end no stream. -/
theorem not_isFinished_nil : ¬ IsFinished [] := by
  intro hparts
  obtain ⟨front, last, heq, -⟩ := hparts
  cases front <;> cases heq

/-- A finished list of spelled instructions ends an index before it, whatever follows it. -/
theorem IsFinished.endIndex {order : ByteOrder} {registers : Registers} {position : Nat}
    {instructions : List Instruction} (h : IsFinished instructions)
    (hspelled : Spelled order registers position instructions) (others : Bytes) :
    IndexCode.EndIndex (streamBytes instructions ++ others) := by
  cases instructions with
  | nil => exact absurd h not_isFinished_nil
  | cons instruction rest => exact hspelled.endIndex others

namespace Decoder

/-- A finished list of spelled instructions is read to its end, whatever follows it. -/
theorem readAll_append {decoder : Decoder} {instructions : List Instruction} {rest : Bytes}
    (h : decoder.status = .reading) (hrest : decoder.rest = streamBytes instructions ++ rest)
    (hspelled : Spelled decoder.order decoder.registers decoder.position instructions)
    (hfinished : IsFinished instructions) :
    ∃ last, decoder.readAll = .ok (instructions, last) ∧ last.rest = rest ∧
      last.position = decoder.position + (streamBytes instructions).length := by
  induction instructions generalizing decoder with
  | nil => exact absurd hfinished not_isFinished_nil
  | cons instruction others ih =>
      obtain ⟨hoffset, hinstruction, hothers⟩ := hspelled
      rw [streamBytes_cons, List.append_assoc] at hrest
      have hafter : (decoder.advance instruction).rest = streamBytes others ++ rest := by
        simp only [advance, hrest, List.drop_left]
      -- Only the last instruction may be followed by a byte that looks like a digit.
      rcases isFinished_cons.mp hfinished with ⟨hfinish, rfl⟩ | ⟨hfinish, hfinished⟩
      · have hread := read_append hrest hoffset hinstruction (fun hne => absurd hfinish hne)
        have hended := mt (decoder.status_advance instruction).mp (not_not_intro hfinish)
        refine ⟨decoder.advance instruction, ?_, hafter, ?_⟩
        · rw [readAll_of_ok h hread, readAll_of_status_ne hended]
          rfl
        · simp [advance]
      · have hend := hfinished.endIndex hothers rest
        have hread := read_append hrest hoffset hinstruction (fun _ => hend)
        have hreading := (decoder.status_advance instruction).mpr hfinish
        obtain ⟨last, hall, hlast, hposition⟩ := ih hreading hafter hothers hfinished
        refine ⟨last, ?_, hlast, ?_⟩
        · rw [readAll_of_ok h hread, hall]
          rfl
        · rw [hposition, streamBytes_cons, List.length_append]
          simp only [advance]
          omega

/-- What is read to the end is an instruction, and what is read to the end behind it. -/
theorem exists_of_readAll {decoder last : Decoder} {instructions : List Instruction}
    (h : decoder.status = .reading) (hall : decoder.readAll = .ok (instructions, last)) :
    ∃ instruction others, instructions = instruction :: others ∧
      decoder.read = (.ok instruction, decoder.advance instruction) ∧
      (decoder.advance instruction).readAll = .ok (others, last) := by
  rcases hread : decoder.read with ⟨fault | instruction, after⟩
  · rw [readAll_of_error h hread] at hall
    cases hall
  · obtain ⟨-, -, rfl, -⟩ := eq_append_of_read hread
    rw [readAll_of_ok h hread] at hall
    obtain ⟨⟨others, stopped⟩, hothers, heq⟩ := map_eq_ok.mp hall
    cases heq
    exact ⟨instruction, others, rfl, rfl, hothers⟩

/-- What is read to the end is a finished list of spelled instructions. -/
theorem eq_append_of_readAll {decoder last : Decoder} {instructions : List Instruction}
    (h : decoder.status = .reading) (hall : decoder.readAll = .ok (instructions, last)) :
    Spelled decoder.order decoder.registers decoder.position instructions ∧
      IsFinished instructions ∧ decoder.rest = streamBytes instructions ++ last.rest := by
  induction instructions generalizing decoder with
  | nil =>
      obtain ⟨_, _, heq, -⟩ := exists_of_readAll h hall
      cases heq
  | cons instruction others ih =>
      obtain ⟨_, _, heq, hread, hbehind⟩ := exists_of_readAll h hall
      cases heq
      obtain ⟨hoffset, hspelled, -, rest, hbytes⟩ := eq_append_of_read hread
      have hdrop : (decoder.advance instruction).rest = rest := by
        simp only [advance, hbytes, List.drop_left]
      -- The decoder stops behind the end of the stream, and goes on behind all else.
      by_cases hfinish : instruction.opcode = .finish
      · have hended := mt (decoder.status_advance instruction).mp (not_not_intro hfinish)
        rw [readAll_of_status_ne hended] at hbehind
        cases hbehind
        refine ⟨⟨hoffset, hspelled, trivial⟩, isFinished_cons.mpr (.inl ⟨hfinish, rfl⟩), ?_⟩
        rw [streamBytes_cons, streamBytes_nil, List.append_nil, hdrop, hbytes]
      · have hreading := (decoder.status_advance instruction).mpr hfinish
        obtain ⟨hothers, hfinished, hlast⟩ := ih hreading hbehind
        refine ⟨⟨hoffset, hspelled, hothers⟩, isFinished_cons.mpr (.inr ⟨hfinish, hfinished⟩), ?_⟩
        rw [streamBytes_cons, List.append_assoc, ← hlast, hdrop, hbytes]

end Decoder

/-- A stream decodes exactly when it is a finished list of spelled instructions and padding. -/
theorem decodeStream_eq_ok_iff {order : ByteOrder} {stream : Bytes}
    {instructions : List Instruction} :
    decodeStream order stream = .ok instructions ↔
      Spelled order .blank 0 instructions ∧ IsFinished instructions ∧
        ∃ pad, IsPadding pad ∧ stream = streamBytes instructions ++ pad := by
  constructor
  · intro h
    unfold decodeStream at h
    cases hall : (Decoder.start order stream).readAll with
    | error fault =>
        rw [hall] at h
        cases h
    | ok result =>
        obtain ⟨read, last⟩ := result
        obtain ⟨hspelled, hfinished, hstream⟩ := Decoder.eq_append_of_readAll rfl hall
        rw [hall] at h
        simp only [bind, Except.bind] at h
        split at h
        · rename_i hpad
          cases h
          exact ⟨hspelled, hfinished, last.rest, hpad, hstream⟩
        · cases h
  · intro hparts
    obtain ⟨hspelled, hfinished, pad, hpad, rfl⟩ := hparts
    have hstart : (Decoder.start order (streamBytes instructions ++ pad)).rest =
        streamBytes instructions ++ pad := rfl
    obtain ⟨last, hall, hrest, -⟩ := Decoder.readAll_append rfl hstart hspelled hfinished
    unfold decodeStream
    rw [hall]
    simp only [bind, Except.bind, hrest]
    exact if_pos hpad

/-- What follows a stream that decodes is let pass or counted. -/
theorem decodeStream_append {order : ByteOrder} {stream rest : Bytes}
    {instructions : List Instruction} (h : decodeStream order stream = .ok instructions) :
    decodeStream order (streamBytes instructions ++ rest) =
      if rest = [] ∨ rest = [0] then .ok instructions
      else .error (.trailingBytes (streamBytes instructions).length rest.length) := by
  obtain ⟨hspelled, hfinished, -⟩ := decodeStream_eq_ok_iff.mp h
  have hstart : (Decoder.start order (streamBytes instructions ++ rest)).rest =
      streamBytes instructions ++ rest := rfl
  obtain ⟨last, hall, hrest, hposition⟩ := Decoder.readAll_append rfl hstart hspelled hfinished
  have hlength : last.position = (streamBytes instructions).length :=
    hposition.trans (Nat.zero_add _)
  unfold decodeStream
  rw [hall]
  simp only [bind, Except.bind, hrest, hlength]
  rfl

end StageArchive
