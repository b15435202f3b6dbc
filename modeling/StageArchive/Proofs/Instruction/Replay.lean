import StageArchive.Instruction.Encoder
import StageArchive.Proofs.Instruction.Grammar
import StageArchive.Proofs.NameIndex
import StageArchive.Proofs.Outcome
/-!
# What a stream says

`replay` reads a list of instructions with the two registers in mind: it leaves out the instructions
that only set a register, and says of each value which property the offset register points at. An
encoder keeps a register of its own for that and writes a property only when it differs. Both
registers hold the same unless a call writes the opcode that sets the register as if it were any
opcode with a symbol: then the decoder's register changes and the encoder's does not.

`record_replays_iff` says what is read back of the calls of an encoder, and that values go to the
properties that they were written for exactly when no value relies on a register that only the
encoder still has.
-/

namespace StageArchive

/-- The bytes of an operand that is neither an index nor a word. -/
def OperandValue.bytes? : OperandValue → Option Bytes
  | .bytes value => some value
  | .index _ | .word _ => none

/-- What a stream says, apart from how its registers are set. -/
inductive StreamEvent where
  /-- An opcode that has to do with no value, and its operand. -/
  | mark (opcode : Opcode) (operand : Option OperandValue)
  /-- The bytes of the property that the offset register points at. -/
  | value (property : Option UInt32) (bytes : Option Bytes)
  /-- The medium of the property that the offset register points at. -/
  | medium (property number : Option UInt32)
  deriving DecidableEq, Repr

/-- What an instruction says, given the registers before it. -/
def Instruction.event? (registers : Registers) (instruction : Instruction) : Option StreamEvent :=
  let operand := instruction.operand.map (·.value)
  match instruction.opcode with
  | .setOffset | .setLength => none
  | .copy => some (.value registers.offset (operand.bind (·.bytes?)))
  | .copyMediaRef => some (.medium registers.offset instruction.index?)
  | opcode => some (.mark opcode operand)

/-- What instructions say one after the other, given the registers before the first. -/
def replay (registers : Registers) : List Instruction → List StreamEvent
  | [] => []
  | instruction :: rest =>
    (instruction.event? registers).toList ++ replay (registers.after instruction) rest

/-- What instructions say in two parts, the registers going over from the first to the second. -/
@[simp]
theorem replay_append (registers : Registers) (first second : List Instruction) :
    replay registers (first ++ second) =
      replay registers first ++ replay (registers.afterAll first) second := by
  induction first generalizing registers with
  | nil => rfl
  | cons instruction rest ih => simp [replay, ih]

/-- An instruction says one thing at most. -/
theorem length_replay_le (registers : Registers) (instructions : List Instruction) :
    (replay registers instructions).length ≤ instructions.length := by
  induction instructions generalizing registers with
  | nil => simp [replay]
  | cons instruction rest ih =>
      have hrest := ih (registers.after instruction)
      have hfirst : (instruction.event? registers).toList.length ≤ 1 := by
        cases instruction.event? registers <;> simp
      simp only [replay, List.length_append, List.length_cons]
      omega

/-- Every instruction takes a byte at least. -/
theorem Spelled.length_le {order : ByteOrder} {registers : Registers} {position : Nat}
    {instructions : List Instruction} (h : Spelled order registers position instructions) :
    instructions.length ≤ (streamBytes instructions).length := by
  induction instructions generalizing registers position with
  | nil => simp
  | cons instruction rest ih =>
      obtain ⟨-, hinstruction, hrest⟩ := h
      obtain ⟨tail, htail⟩ := hinstruction.bytes_eq
      have hothers := ih hrest
      rw [streamBytes_cons, htail]
      simp only [List.length_append, List.length_cons]
      omega

/-- The end of a stream has no operand. -/
theorem Instruction.Spelled.ne_finish_of_index {order : ByteOrder} {registers : Registers}
    {instruction : Instruction} (h : instruction.Spelled order registers)
    (hindex : instruction.index?.isSome) : instruction.opcode ≠ .finish := by
  intro hfinish
  obtain ⟨offset, opcode, operand, bytes⟩ := instruction
  subst hfinish
  cases operand with
  | none => cases hindex
  | some operand => exact h

/-- Behind every index stands the opcode of another instruction, also behind one that takes no
bytes. -/
theorem Spelled.exists_opcode_behind {order : ByteOrder} {registers : Registers}
    {instructions : List Instruction} {instruction : Instruction}
    (hspelled : Spelled order registers 0 instructions) (hfinished : IsFinished instructions)
    (hmem : instruction ∈ instructions) (hindex : instruction.index?.isSome) :
    ∃ byte,
      (streamBytes instructions)[instruction.offset + instruction.bytes.length]? = some byte ∧
        IndexCode.isOpcodeByte byte = true := by
  obtain ⟨front, back, rfl⟩ := List.append_of_mem hmem
  obtain ⟨-, hoffset, hinstruction, hback⟩ := spelled_append.mp hspelled
  have hopcode := hinstruction.ne_finish_of_index hindex
  cases back with
  | nil =>
      obtain ⟨others, last, heq, hlast, -⟩ := hfinished
      obtain ⟨-, hsame⟩ := List.append_inj' heq rfl
      cases hsame
      exact absurd hlast hopcode
  | cons next others =>
      obtain ⟨tail, htail⟩ := hback.2.1.bytes_eq
      refine ⟨next.opcode.toByte, ?_, next.opcode.isOpcodeByte_toByte⟩
      rw [streamBytes_append, streamBytes_cons, streamBytes_cons, htail, hoffset, Nat.zero_add,
        List.getElem?_append_right (Nat.le_add_right ..), Nat.add_sub_cancel_left,
        List.getElem?_append_right (Nat.le_refl _), Nat.sub_self]
      rfl

namespace EncoderCall

/-- The medium that a call names. -/
def medium? : EncoderCall → Option String
  | .mediaRef _ (.pending name) => some name
  | _ => none

/-- The media that calls name, in order. -/
def mediaNames (calls : List EncoderCall) : List String :=
  calls.filterMap medium?

theorem mediaNames_cons (call : EncoderCall) (calls : List EncoderCall) :
    mediaNames (call :: calls) = call.medium?.toList ++ mediaNames calls := by
  rw [mediaNames, List.filterMap_cons]
  cases call.medium? <;> rfl

/-- A call that an encoder carries out and that does not end the stream: its opcode fits it, and a
value is no longer than the length register can say. -/
def IsAdmitted : EncoderCall → Prop
  | .plain opcode => opcode.operand? = none ∧ opcode ≠ .finish
  | .symbol opcode _ => ∃ space, opcode.operand? = some (.symbol space)
  | .property _ value => value.length < 2 ^ 32
  | .flags _ | .setOffset _ | .setLength _ | .mediaRef _ _ => True

/-- The property that a call gives a value or a medium. -/
def property? : EncoderCall → Option UInt32
  | .property target _ | .mediaRef target _ => some target
  | _ => none

/-- The answer of a call, when the names of media end up in the given order. -/
def answer (names : List String) : EncoderCall → Option UInt32
  | .mediaRef _ (.pending name) => some (UInt32.ofNat (names.idxOf name))
  | .mediaRef _ (.resolved number) => some number
  | _ => none

/-- What a call says when the decoder's register points at a property. -/
def eventAt (names : List String) (register : Option UInt32) : EncoderCall → Option StreamEvent
  | .plain opcode => some (.mark opcode none)
  | .symbol .setOffset _ | .setOffset _ | .setLength _ => none
  | .symbol opcode index => some (.mark opcode (some (.index index)))
  | .flags value => some (.mark .flags (some (.word value)))
  | .property _ value => some (.value register (some value))
  | .mediaRef target reference =>
    some (.medium register ((EncoderCall.mediaRef target reference).answer names))

/-- What a call is meant to say: a value or a medium belongs to the call's own property. -/
def event? (names : List String) (call : EncoderCall) : Option StreamEvent :=
  call.eventAt names call.property?

/-- A decoder's offset register where an encoder points its own at a property, which takes an
instruction only when its own is another. -/
def pointedAt (kept read : Option UInt32) (target : UInt32) : Option UInt32 :=
  if kept = some target then read else some target

/-- The encoder's offset register after a call. -/
def keptAfter (kept : Option UInt32) : EncoderCall → Option UInt32
  | .setOffset target | .property target _ | .mediaRef target _ => some target
  | _ => kept

/-- The decoder's offset register after what a call writes, when the encoder's may be another. -/
def readAfter (kept read : Option UInt32) : EncoderCall → Option UInt32
  | .setOffset target | .property target _ | .mediaRef target _ => pointedAt kept read target
  | .symbol .setOffset target => some target
  | _ => read

/-- What calls say one after the other, given the offset registers before the first. -/
def said (names : List String) (kept read : Option UInt32) : List EncoderCall → List StreamEvent
  | [] => []
  | call :: calls =>
    (call.eventAt names (call.readAfter kept read)).toList ++
      said names (call.keptAfter kept) (call.readAfter kept read) calls

/-- At every value and medium the decoder's register points at the property of the call. -/
def InStep (kept read : Option UInt32) : List EncoderCall → Prop
  | [] => True
  | call :: calls =>
    (∀ property ∈ call.property?, call.readAfter kept read = some property) ∧
      InStep (call.keptAfter kept) (call.readAfter kept read) calls

/-- The registers stay the same when no call writes one as an opcode with a symbol. -/
theorem inStep_of_forall {register : Option UInt32} {calls : List EncoderCall}
    (h : ∀ call ∈ calls, ∀ property, call ≠ .symbol .setOffset property) :
    InStep register register calls := by
  induction calls generalizing register with
  | nil => trivial
  | cons call calls ih =>
      have hcall := h call (List.mem_cons_self ..)
      have hsame : call.readAfter register register = call.keptAfter register := by
        cases call with
        | symbol opcode index =>
            cases opcode <;> first | rfl | exact absurd rfl (hcall index)
        | setOffset | property | mediaRef =>
            simp only [readAfter, keptAfter, pointedAt]
            split
            · assumption
            · rfl
        | plain | flags | setLength => rfl
      refine ⟨?_, ?_⟩
      · intro property hproperty
        rw [hsame]
        cases call <;> first | exact hproperty | cases hproperty
      · rw [hsame]
        exact ih fun other hother => h other (List.mem_cons_of_mem _ hother)

/-- A call says what it is meant to say exactly when the decoder's register points at its property;
what is said after it is a matter of its own. -/
theorem eventAt_append_eq_iff {names : List String} {register : Option UInt32} {call : EncoderCall}
    {others meant : List StreamEvent} :
    (call.eventAt names register).toList ++ others = (call.event? names).toList ++ meant ↔
      (∀ property ∈ call.property?, register = some property) ∧ others = meant := by
  cases call with
  | symbol opcode index => cases opcode <;> simp [eventAt, event?, property?]
  | plain | flags | setOffset | setLength | property | mediaRef =>
      simp [eventAt, event?, property?]

/-- Calls say what they are meant to say exactly when they are in step. -/
theorem said_eq_iff {names : List String} {kept read : Option UInt32} {calls : List EncoderCall} :
    said names kept read calls = calls.filterMap (·.event? names) ↔ InStep kept read calls := by
  induction calls generalizing kept read with
  | nil => simp [said, InStep]
  | cons call calls ih =>
      have hmeant : (call :: calls).filterMap (·.event? names) =
          (call.event? names).toList ++ calls.filterMap (·.event? names) := by
        rw [List.filterMap_cons]
        cases call.event? names <;> rfl
      rw [said, hmeant, eventAt_append_eq_iff, ih, InStep]

/-- A name that has its place keeps it, so the answer of the call that mentions it stays. -/
theorem answer_addAll {index : NameIndex} {call : EncoderCall} (names : List String)
    (h : ∀ name ∈ call.medium?, name ∈ index.names) :
    call.answer (index.addAll names).names = call.answer index.names := by
  cases call with
  | mediaRef target reference =>
      cases reference with
      | pending name => simp only [answer, NameIndex.idxOf_addAll names (h name rfl)]
      | resolved number => rfl
  | plain | symbol | flags | setOffset | setLength | property => rfl

/-- What a call says depends on the names by its answer alone. -/
theorem eventAt_congr {names others : List String} {call : EncoderCall}
    (h : call.answer names = call.answer others) (register : Option UInt32) :
    call.eventAt names register = call.eventAt others register := by
  cases call with
  | mediaRef target reference =>
      exact congrArg (fun number => some (StreamEvent.medium register number)) h
  | symbol opcode index => cases opcode <;> rfl
  | plain | flags | setOffset | setLength | property => rfl

end EncoderCall

namespace Encoder

/-- Makes calls in order, up to the first misuse, and keeps their answers. -/
def record (encoder : Encoder) :
    List EncoderCall → Except EncoderMisuse (Encoder × List (Option UInt32))
  | [] => .ok (encoder, [])
  | call :: calls => do
    let (middle, answer) ← encoder.call call
    let (after, answers) ← middle.record calls
    pure (after, answer :: answers)

/-- The registers of a decoder that has read what an encoder wrote. Its offset register need not be
the encoder's. -/
def readBy (encoder : Encoder) (offset : Option UInt32) : Registers :=
  ⟨offset, encoder.registers.length⟩

/-- From one state to another an encoder appends instructions. Whatever a decoder's offset register
holds before them, they are spelled for it, change the register in one way and say some events. -/
structure Writes (encoder : Encoder) (instructions : List Instruction) (after : Encoder)
    (later : Option UInt32 → Option UInt32) (events : Option UInt32 → List StreamEvent) : Prop where
  order_eq : after.order = encoder.order
  bytes_eq : after.bytes = encoder.bytes ++ streamBytes instructions
  unfinished : ∀ instruction ∈ instructions, instruction.opcode ≠ .finish
  spelled : ∀ read, Spelled encoder.order (encoder.readBy read) encoder.bytes.length instructions
  registers_eq : ∀ read, (encoder.readBy read).afterAll instructions = after.readBy (later read)
  replay_eq : ∀ read, replay (encoder.readBy read) instructions = events read

/-- An encoder that does nothing says nothing. -/
theorem Writes.refl (encoder : Encoder) : Writes encoder [] encoder id fun _ => [] where
  order_eq := rfl
  bytes_eq := (List.append_nil _).symm
  unfinished := fun _ hinstruction => absurd hinstruction List.not_mem_nil
  spelled := fun _ => trivial
  registers_eq := fun _ => rfl
  replay_eq := fun _ => rfl

/-- What is said in two parts is said as a whole. -/
theorem Writes.trans {encoder middle after : Encoder} {first second : List Instruction}
    {later last : Option UInt32 → Option UInt32} {events others : Option UInt32 → List StreamEvent}
    (hfirst : Writes encoder first middle later events)
    (hsecond : Writes middle second after last others) :
    Writes encoder (first ++ second) after (fun read => last (later read))
      fun read => events read ++ others (later read) where
  order_eq := by rw [hsecond.order_eq, hfirst.order_eq]
  bytes_eq := by rw [hsecond.bytes_eq, hfirst.bytes_eq, streamBytes_append, List.append_assoc]
  unfinished := by
    intro instruction hinstruction
    rcases List.mem_append.mp hinstruction with hinstruction | hinstruction
    · exact hfirst.unfinished instruction hinstruction
    · exact hsecond.unfinished instruction hinstruction
  spelled := by
    intro read
    have hrest := hsecond.spelled (later read)
    rw [hfirst.order_eq, hfirst.bytes_eq, List.length_append, ← hfirst.registers_eq] at hrest
    exact spelled_append.mpr ⟨hfirst.spelled read, hrest⟩
  registers_eq := by
    intro read
    rw [Registers.afterAll_append, hfirst.registers_eq, hsecond.registers_eq]
  replay_eq := by
    intro read
    rw [replay_append, hfirst.registers_eq, hfirst.replay_eq, hsecond.replay_eq]

/-- One instruction is appended, with what it does to the registers and what it says. -/
theorem writes_instruction (encoder after : Encoder) {instruction : Instruction}
    {later : Option UInt32 → Option UInt32} {events : Option UInt32 → List StreamEvent}
    (hemit : after.order = encoder.order ∧ after.bytes = encoder.bytes ++ instruction.bytes)
    (hoffset : instruction.offset = encoder.bytes.length) (hfinish : instruction.opcode ≠ .finish)
    (hspelled : ∀ read, instruction.Spelled encoder.order (encoder.readBy read))
    (hregisters : ∀ read, (encoder.readBy read).after instruction = after.readBy (later read))
    (hevents : ∀ read, (instruction.event? (encoder.readBy read)).toList = events read) :
    Writes encoder [instruction] after later events where
  order_eq := hemit.1
  bytes_eq := by rw [hemit.2, streamBytes_cons, streamBytes_nil, List.append_nil]
  unfinished := by
    intro other hother
    obtain rfl := List.mem_singleton.mp hother
    exact hfinish
  spelled := fun read => ⟨hoffset, hspelled read, trivial⟩
  registers_eq := hregisters
  replay_eq := by
    intro read
    rw [← hevents]
    exact List.append_nil _

/-- The offset register of an encoder after it is pointed at a property; the length register stays. -/
@[simp]
theorem registers_setOffset (encoder : Encoder) (property : UInt32) :
    (encoder.setOffset property).registers = ⟨some property, encoder.registers.length⟩ := by
  unfold setOffset
  split
  · rename_i hregister
    rw [← hregister]
  · rfl

/-- Pointing the offset register at a property mentions no name. -/
@[simp]
theorem names_setOffset (encoder : Encoder) (property : UInt32) :
    (encoder.setOffset property).names = encoder.names := by
  unfold setOffset
  split <;> rfl

/-- The length register of an encoder after it is set; the offset register stays. -/
@[simp]
theorem registers_setLength (encoder : Encoder) (length : UInt32) :
    (encoder.setLength length).registers = ⟨encoder.registers.offset, some length⟩ := by
  unfold setLength
  split
  · rename_i hregister
    rw [← hregister]
  · rfl

/-- Setting the length register mentions no name. -/
@[simp]
theorem names_setLength (encoder : Encoder) (length : UInt32) :
    (encoder.setLength length).names = encoder.names := by
  unfold setLength
  split <;> rfl

/-- An opcode without operand is said. -/
theorem writes_plain (encoder : Encoder) {opcode : Opcode} (hnone : opcode.operand? = none)
    (hfinish : opcode ≠ .finish) :
    ∃ instructions,
      Writes encoder instructions (encoder.emit opcode []) id fun _ => [.mark opcode none] := by
  refine ⟨[⟨encoder.bytes.length, opcode, none, [opcode.toByte]⟩],
    writes_instruction _ _ ⟨rfl, rfl⟩ rfl hfinish (fun _ => ?_) (fun _ => ?_) fun _ => ?_⟩
  · simp [Instruction.Spelled, hnone]
  · cases opcode <;> first | rfl | cases hnone
  · cases opcode <;> first | rfl | cases hnone

/-- An opcode with a symbol operand is said, except the one that sets the offset register. -/
theorem writes_symbol (encoder : Encoder) {opcode : Opcode} {space : Namespace}
    (hkind : opcode.operand? = some (.symbol space)) (index : UInt32) :
    ∃ instructions,
      Writes encoder instructions (encoder.symbol opcode index)
        ((EncoderCall.symbol opcode index).readAfter encoder.registers.offset)
        fun read => ((EncoderCall.symbol opcode index).eventAt [] read).toList := by
  refine ⟨[.ofIndex encoder.bytes.length opcode (.symbol space) index],
    writes_instruction _ _ ⟨rfl, rfl⟩ rfl ?_ (fun _ => Instruction.spelled_ofIndex hkind rfl)
      (fun _ => ?_) fun _ => ?_⟩
  · rintro rfl
    cases hkind
  · cases opcode <;> first | rfl | cases hkind
  · cases opcode <;> first | rfl | cases hkind

/-- The flags are said. -/
theorem writes_flags (encoder : Encoder) (value : UInt32) :
    ∃ instructions,
      Writes encoder instructions (encoder.flags value) id
        fun _ => [.mark .flags (some (.word value))] :=
  ⟨[⟨encoder.bytes.length, .flags, some ⟨.word, .word value, 4⟩,
      Opcode.flags.toByte :: encoder.order.encode value⟩],
    writes_instruction _ _ ⟨rfl, rfl⟩ rfl Opcode.noConfusion
      (fun _ => ⟨rfl, _, rfl, (ByteOrder.length_encode _ _).symm, rfl⟩) (fun _ => rfl) fun _ => rfl⟩

/-- Pointing the offset register at a property says nothing. The decoder's register changes only when
the encoder's does. -/
theorem writes_setOffset (encoder : Encoder) (property : UInt32) :
    ∃ instructions,
      Writes encoder instructions (encoder.setOffset property)
        (EncoderCall.pointedAt encoder.registers.offset · property) fun _ => [] := by
  by_cases hregister : encoder.registers.offset = some property
  · simp only [setOffset, EncoderCall.pointedAt, if_pos hregister]
    exact ⟨[], Writes.refl encoder⟩
  · simp only [setOffset, EncoderCall.pointedAt, if_neg hregister]
    exact ⟨[.ofIndex encoder.bytes.length .setOffset (.symbol .property) property],
      writes_instruction _ _ ⟨rfl, rfl⟩ rfl Opcode.noConfusion
        (fun _ => Instruction.spelled_ofIndex rfl rfl) (fun _ => rfl) fun _ => rfl⟩

/-- Setting the length register says nothing. -/
theorem writes_setLength (encoder : Encoder) (length : UInt32) :
    ∃ instructions, Writes encoder instructions (encoder.setLength length) id fun _ => [] := by
  unfold setLength
  split
  · exact ⟨[], Writes.refl encoder⟩
  · exact ⟨[.ofIndex encoder.bytes.length .setLength .count length],
      writes_instruction _ _ ⟨rfl, rfl⟩ rfl Opcode.noConfusion
        (fun _ => Instruction.spelled_ofIndex rfl rfl) (fun _ => rfl) fun _ => rfl⟩

/-- A value is said of the property that the decoder's register points at, when the length register
holds its length. -/
theorem writes_copy (encoder : Encoder) {value : Bytes} (hvalue : value.length < 2 ^ 32)
    (hlength : encoder.registers.length = some (UInt32.ofNat value.length)) :
    ∃ instructions,
      Writes encoder instructions (encoder.emit .copy value) id
        fun read => [.value read (some value)] :=
  ⟨[⟨encoder.bytes.length, .copy, some ⟨.bytes, .bytes value, value.length⟩,
      Opcode.copy.toByte :: value⟩],
    writes_instruction _ _ ⟨rfl, rfl⟩ rfl Opcode.noConfusion
      (fun _ => ⟨rfl, value, rfl, rfl, rfl, _, hlength, UInt32.toNat_ofNat_of_lt' hvalue⟩)
      (fun _ => rfl) fun _ => rfl⟩

/-- A number is said as the medium of the property that the decoder's register points at. -/
theorem writes_copyMediaRef (encoder after : Encoder) (number : UInt32)
    (hafter : after.order = encoder.order ∧
      after.bytes = (encoder.symbol .copyMediaRef number).bytes ∧
      after.registers.length = encoder.registers.length) :
    ∃ instructions,
      Writes encoder instructions after id fun read => [.medium read (some number)] :=
  ⟨[.ofIndex encoder.bytes.length .copyMediaRef .asset number],
    writes_instruction _ _ ⟨hafter.1, hafter.2.1⟩ rfl Opcode.noConfusion
      (fun _ => Instruction.spelled_ofIndex rfl rfl)
      (fun read => congrArg (Registers.mk read) hafter.2.2.symm) fun _ => rfl⟩

/-- A property that is given a value is given one whose length the length register can say. -/
theorem length_lt_of_property {encoder after : Encoder} {property : UInt32} {value : Bytes}
    (h : encoder.property property value = .ok after) : value.length < 2 ^ 32 := by
  unfold Encoder.property at h
  split at h
  · assumption
  · cases h

/-- Giving a property a value says the value of the property that the decoder's register then points
at. -/
theorem writes_property (encoder : Encoder) (property : UInt32) {value : Bytes}
    (hvalue : value.length < 2 ^ 32) :
    ∃ after instructions, encoder.property property value = .ok after ∧
      after.registers.offset = some property ∧ after.names = encoder.names ∧
      let pointed := (EncoderCall.pointedAt encoder.registers.offset · property)
      Writes encoder instructions after pointed fun read => [.value (pointed read) (some value)] := by
  obtain ⟨first, hfirst⟩ := writes_setOffset encoder property
  obtain ⟨second, hsecond⟩ :=
    writes_setLength (encoder.setOffset property) (UInt32.ofNat value.length)
  obtain ⟨third, hthird⟩ := writes_copy
    ((encoder.setOffset property).setLength (UInt32.ofNat value.length)) hvalue (by simp)
  exact ⟨_, first ++ second ++ third, if_pos hvalue, by simp [emit], by simp [emit],
    (hfirst.trans hsecond).trans hthird⟩

/-- Giving a property a medium says its number of the property that the decoder's register then points
at. -/
theorem writes_mediaRef (encoder : Encoder) (property : UInt32) (reference : AssetRef) :
    let call := EncoderCall.mediaRef property reference
    let after := (encoder.mediaRef property reference).1
    some (encoder.mediaRef property reference).2 = call.answer after.names.names ∧
      after.registers.offset = some property ∧
      after.names = encoder.names.addAll call.medium?.toList ∧
      ∃ instructions,
        let pointed := (EncoderCall.pointedAt encoder.registers.offset · property)
        Writes encoder instructions after pointed
          fun read => [.medium (pointed read) (call.answer after.names.names)] := by
  obtain ⟨first, hfirst⟩ := writes_setOffset encoder property
  have hregister : (encoder.setOffset property).registers.offset = some property := by simp
  -- A pending name is numbered by the table as it is added; a resolved number is written as it is.
  cases reference with
  | pending name =>
      have hnumber := NameIndex.insert_number (encoder.setOffset property).names name
      obtain ⟨second, hsecond⟩ := writes_copyMediaRef (encoder.setOffset property)
        (encoder.mediaRef property (.pending name)).1
        ((encoder.setOffset property).names.insert name).2.1 ⟨rfl, rfl, rfl⟩
      rw [hnumber] at hsecond
      refine ⟨congrArg some hnumber, hregister, ?_, _, hfirst.trans hsecond⟩
      simp [mediaRef, symbol, emit, EncoderCall.medium?, NameIndex.insert, NameIndex.addAll]
  | resolved number =>
      obtain ⟨second, hsecond⟩ := writes_copyMediaRef (encoder.setOffset property)
        (encoder.mediaRef property (.resolved number)).1 _ ⟨rfl, rfl, rfl⟩
      refine ⟨rfl, hregister, ?_, _, hfirst.trans hsecond⟩
      simp [mediaRef, symbol, emit, EncoderCall.medium?, NameIndex.addAll]

/-- An admitted call succeeds with its answer, mentions its name and says what it says at the decoder's
register. -/
theorem writes_call (encoder : Encoder) {call : EncoderCall} (h : call.IsAdmitted) :
    ∃ after instructions, encoder.call call = .ok (after, call.answer after.names.names) ∧
      after.registers.offset = call.keptAfter encoder.registers.offset ∧
      after.names = encoder.names.addAll call.medium?.toList ∧
      let later := call.readAfter encoder.registers.offset
      Writes encoder instructions after later
        fun read => (call.eventAt after.names.names (later read)).toList := by
  cases call with
  | plain opcode =>
      obtain ⟨instructions, hwrites⟩ := writes_plain encoder h.1 h.2
      exact ⟨encoder.emit opcode [], instructions, by simp only [call, h.1]; rfl, rfl, rfl, hwrites⟩
  | symbol opcode index =>
      obtain ⟨space, hkind⟩ := h
      obtain ⟨instructions, hwrites⟩ := writes_symbol encoder hkind index
      refine ⟨encoder.symbol opcode index, instructions, by simp only [call, hkind]; rfl, ?_, rfl, ?_⟩
      · cases opcode <;> rfl
      · cases opcode <;> exact hwrites
  | flags value =>
      obtain ⟨instructions, hwrites⟩ := writes_flags encoder value
      exact ⟨_, instructions, rfl, rfl, rfl, hwrites⟩
  | setOffset property =>
      obtain ⟨instructions, hwrites⟩ := writes_setOffset encoder property
      exact ⟨_, instructions, rfl, by simp [EncoderCall.keptAfter], names_setOffset .., hwrites⟩
  | setLength length =>
      obtain ⟨instructions, hwrites⟩ := writes_setLength encoder length
      exact ⟨_, instructions, rfl, by simp [EncoderCall.keptAfter], names_setLength .., hwrites⟩
  | property property value =>
      obtain ⟨after, instructions, hproperty, hregister, hnames, hwrites⟩ :=
        writes_property encoder property h
      exact ⟨after, instructions, by rw [call, hproperty]; rfl, hregister, hnames, hwrites⟩
  | mediaRef property reference =>
      obtain ⟨hanswer, hregister, hnames, instructions, hwrites⟩ :=
        writes_mediaRef encoder property reference
      exact ⟨(encoder.mediaRef property reference).1, instructions, by rw [← hanswer]; rfl, hregister,
        hnames, hwrites⟩

/-- Admitted calls succeed with their answers, mention their names in order and say what they say at
the decoder's register. -/
theorem writes_record (encoder : Encoder) {calls : List EncoderCall}
    (h : ∀ call ∈ calls, call.IsAdmitted) :
    ∃ after instructions later,
      encoder.record calls = .ok (after, calls.map (·.answer after.names.names)) ∧
      after.names = encoder.names.addAll (EncoderCall.mediaNames calls) ∧
      Writes encoder instructions after later
        (EncoderCall.said after.names.names encoder.registers.offset · calls) := by
  induction calls generalizing encoder with
  | nil => exact ⟨encoder, [], id, rfl, rfl, Writes.refl encoder⟩
  | cons call calls ih =>
      obtain ⟨middle, first, hcall, hregister, hmiddle, hfirst⟩ :=
        writes_call encoder (h call (List.mem_cons_self ..))
      obtain ⟨after, second, later, hrecord, hnames, hsecond⟩ :=
        ih middle fun other hother => h other (List.mem_cons_of_mem _ hother)
      -- The names of later calls come behind the one of this call, whose answer stays.
      have hanswer : call.answer after.names.names = call.answer middle.names.names := by
        rw [hnames]
        refine EncoderCall.answer_addAll _ fun name hname => ?_
        rw [hmiddle]
        exact NameIndex.mem_addAll (.inr (Option.mem_toList.mpr hname))
      refine ⟨after, first ++ second, fun read => later (call.readAfter encoder.registers.offset read),
        ?_, ?_, ?_⟩
      · rw [record, hcall, List.map_cons, hanswer]
        simp only [bind, Except.bind, hrecord]
        rfl
      · rw [hnames, hmiddle, EncoderCall.mediaNames_cons, NameIndex.addAll_append]
      · simp only [EncoderCall.said, EncoderCall.eventAt_congr hanswer, ← hregister]
        exact hfirst.trans hsecond

/-- The instruction that ends a stream. -/
def ending (position : Nat) : Instruction :=
  ⟨position, .finish, none, [0x80]⟩

/-- A finished stream has one more instruction, which ends it and after which nothing follows. -/
theorem finish_spelled {order : ByteOrder} {instructions : List Instruction} {encoder : Encoder}
    (hbytes : encoder.bytes = streamBytes instructions)
    (hunfinished : ∀ instruction ∈ instructions, instruction.opcode ≠ .finish)
    (hspelled : Spelled order .blank 0 instructions) :
    let original := instructions ++ [ending (streamBytes instructions).length]
    encoder.finish.bytes = streamBytes original ∧ Spelled order .blank 0 original ∧
      IsFinished original := by
  refine ⟨?_, spelled_append.mpr ⟨hspelled, (Nat.zero_add _).symm, rfl, trivial⟩,
    instructions, ending _, rfl, rfl, hunfinished⟩
  rw [streamBytes_append, ← hbytes]
  rfl

/-- A stream written from the start and finished is read to its end: what is read is what was said,
and the end. -/
theorem Writes.exists_readAll {order : ByteOrder} {instructions : List Instruction}
    {after : Encoder} {later : Option UInt32 → Option UInt32}
    {events : Option UInt32 → List StreamEvent}
    (h : Writes (.start order) instructions after later events) :
    ∃ original last,
      (Decoder.start order after.finish.bytes).readAll = .ok (original, last) ∧
      last.rest = [] ∧ last.position = after.finish.bytes.length ∧
      Spelled order .blank 0 original ∧ IsFinished original ∧
      after.finish.bytes = streamBytes original ∧
      replay .blank original = events none ++ [.mark .finish none] := by
  obtain ⟨hstream, hspelled, hfinished⟩ :=
    finish_spelled h.bytes_eq h.unfinished (h.spelled none)
  have hstart : (Decoder.start order after.finish.bytes).rest = _ ++ [] :=
    hstream.trans (List.append_nil _).symm
  obtain ⟨last, hall, hrest, hposition⟩ := Decoder.readAll_append rfl hstart hspelled hfinished
  refine ⟨_, last, hall, hrest, ?_, hspelled, hfinished, hstream, ?_⟩
  · rw [hposition, hstream]
    exact Nat.zero_add _
  · rw [replay_append]
    exact congrArg (· ++ [StreamEvent.mark .finish none]) (h.replay_eq none)

/-- What is read back of any admitted calls. The stream is read to its end and to the end of its bytes;
behind every index stands an opcode; the names are those mentioned, each once and in order of first
mention, and every mention was answered by its place among them. The values and media that are read
belong to the properties of their calls exactly when the calls are in step. -/
theorem record_replays_iff (order : ByteOrder) {calls : List EncoderCall}
    (h : ∀ call ∈ calls, call.IsAdmitted) :
    ∃ after answers instructions last,
      (Encoder.start order).record calls = .ok (after, answers) ∧
      (Decoder.start order after.finish.bytes).readAll = .ok (instructions, last) ∧
      last.rest = [] ∧ last.position = after.finish.bytes.length ∧ IsFinished instructions ∧
      (∀ instruction ∈ instructions, instruction.index?.isSome → ∃ byte,
        after.finish.bytes[instruction.offset + instruction.bytes.length]? = some byte ∧
          IndexCode.isOpcodeByte byte = true) ∧
      after.finish.names = (EncoderCall.mediaNames calls).eraseDups ∧
      answers = calls.map (·.answer after.finish.names) ∧
      (replay .blank instructions =
          calls.filterMap (·.event? after.finish.names) ++ [.mark .finish none] ↔
        EncoderCall.InStep none none calls) := by
  obtain ⟨after, written, later, hrecord, hnames, hwrites⟩ :=
    writes_record (.start order) h
  obtain ⟨instructions, last, hall, hrest, hposition, hspelled, hfinished, hstream, hreplay⟩ :=
    hwrites.exists_readAll
  refine ⟨after, _, instructions, last, hrecord, hall, hrest, hposition, hfinished, ?_, ?_, rfl, ?_⟩
  · intro instruction hmem hindex
    rw [hstream]
    exact hspelled.exists_opcode_behind hfinished hmem hindex
  · rw [← NameIndex.names_ofList]
    exact congrArg NameIndex.names hnames
  · rw [hreplay, List.append_cancel_right_eq]
    exact EncoderCall.said_eq_iff

/-- Calls that set the offset register both ways and mention a name twice are in step. -/
theorem record_replays_in_step :
    ∃ after instructions last,
      (Encoder.start .big).record [.symbol .actor 300, .flags 5, .symbol .setOffset 4,
        .property 7 [0x8d, 0], .property 7 [], .mediaRef 9 (.pending "a"), .mediaRef 9 (.pending "b"),
        .mediaRef 9 (.pending "a"), .mediaRef 7 (.resolved 8), .plain .endActor] =
          .ok (after, [none, none, none, none, none, some 0, some 1, some 0, some 8, none]) ∧
      (Decoder.start .big after.finish.bytes).readAll = .ok (instructions, last) ∧
      last.rest = [] ∧ after.finish.names = ["a", "b"] ∧
      replay .blank instructions = [.mark .actor (some (.index 300)), .mark .flags (some (.word 5)),
        .value (some 7) (some [0x8d, 0]), .value (some 7) (some []), .medium (some 9) (some 0),
        .medium (some 9) (some 1), .medium (some 9) (some 0), .medium (some 7) (some 8),
        .mark .endActor none, .mark .finish none] := by
  have hadmitted : ∀ call ∈ [EncoderCall.symbol .actor 300, .flags 5, .symbol .setOffset 4,
      .property 7 [0x8d, 0], .property 7 [], .mediaRef 9 (.pending "a"),
      .mediaRef 9 (.pending "b"), .mediaRef 9 (.pending "a"), .mediaRef 7 (.resolved 8),
      .plain .endActor], call.IsAdmitted := by
    simp [EncoderCall.IsAdmitted, Opcode.operand?]
  obtain ⟨after, answers, instructions, last, hrecord, hall, hrest, -, -, -, hnames, rfl, hreplay⟩ :=
    record_replays_iff .big hadmitted
  obtain hnames : after.finish.names = ["a", "b"] := hnames.trans (by decide)
  rw [hnames] at hrecord hreplay
  refine ⟨after, instructions, last, hrecord, hall, hrest, hnames, hreplay.mpr ?_⟩
  simp [EncoderCall.InStep, EncoderCall.readAfter, EncoderCall.keptAfter, EncoderCall.pointedAt,
    EncoderCall.property?]

/-- A call that writes the offset register as an opcode with a symbol leaves the encoder's register
behind: the value that follows is written for property 1 and read as one of property 2. -/
theorem record_out_of_step :
    ∃ after answers instructions last,
      (Encoder.start .big).record [.setOffset 1, .symbol .setOffset 2, .property 1 [0]] =
        .ok (after, answers) ∧
      after.finish.bytes = [0x8a, 1, 0x8a, 2, 0x8b, 1, 0x8c, 0, 0x80] ∧
      (Decoder.start .big after.finish.bytes).readAll = .ok (instructions, last) ∧
      replay .blank instructions = [.value (some 2) (some [0]), .mark .finish none] ∧
      replay .blank instructions ≠
        [EncoderCall.setOffset 1, .symbol .setOffset 2, .property 1 [0]].filterMap
          (·.event? after.finish.names) ++ [.mark .finish none] := by
  have hadmitted : ∀ call ∈ [EncoderCall.setOffset 1, .symbol .setOffset 2, .property 1 [0]],
      call.IsAdmitted := by
    simp [EncoderCall.IsAdmitted, Opcode.operand?]
  obtain ⟨after, written, later, hrecord, -, hwrites⟩ := writes_record (.start .big) hadmitted
  obtain ⟨instructions, last, hall, -, -, -, -, -, hreplay⟩ := hwrites.exists_readAll
  have hbytes : after.finish.bytes = [0x8a, 1, 0x8a, 2, 0x8b, 1, 0x8c, 0, 0x80] := by
    cases hrecord
    decide
  have hvalue : replay .blank instructions =
      [.value (some 2) (some [0]), .mark .finish none] := hreplay
  refine ⟨after, _, instructions, last, hrecord, hbytes, hall, hvalue, ?_⟩
  rw [hvalue]
  simp [EncoderCall.event?, EncoderCall.eventAt, EncoderCall.property?]

end Encoder

end StageArchive
