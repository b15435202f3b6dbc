import StageArchive.Proofs.Instruction.Replay
/-!
# What an encoder writes

Between two states an encoder has appended instructions, all of them spelled, and numbered the names
of media on the way. The offset register is not part of the claim: a call that writes a symbol may
write any opcode with a symbol operand, also the one that sets this register, without the encoder
keeping its own in step. The length register is, since it says where a `copy` ends. What a call
appends is what it writes, seen without the properties that its values belong to; `appends_perform`
follows for a whole list of calls.
-/

namespace StageArchive

/-- The operands that refer to media, in order. -/
def assetOperands (instructions : List Instruction) : List (Option UInt32) :=
  (instructions.filter (·.opcode = .copyMediaRef)).map (·.index?)

@[simp]
theorem assetOperands_append (first second : List Instruction) :
    assetOperands (first ++ second) = assetOperands first ++ assetOperands second := by
  simp [assetOperands]

/-- The number of the medium that is said to belong to a property. -/
def StreamEvent.number? : StreamEvent → Option (Option UInt32)
  | .medium _ number => some number
  | .mark _ _ | .value _ _ => none

/-- The operands that refer to media are the numbers of the media that are said. -/
theorem assetOperands_eq_numbers (registers : Registers) (instructions : List Instruction) :
    assetOperands instructions = (replay registers instructions).filterMap (·.number?) := by
  induction instructions generalizing registers with
  | nil => rfl
  | cons instruction rest ih =>
      have hfirst : assetOperands [instruction] =
          (instruction.event? registers).toList.filterMap (·.number?) := by
        obtain ⟨offset, opcode, operand, bytes⟩ := instruction
        cases opcode <;> rfl
      rw [← List.singleton_append, assetOperands_append, hfirst, ih (registers.after instruction),
        List.singleton_append, replay, List.filterMap_append]

namespace EncoderCall

/-- A call that is carried out: its opcode fits it and is not the end of the stream, a value is no
longer than the length register can say, and a medium is given by its name. -/
def IsRegular : EncoderCall → Prop
  | .plain opcode => opcode.operand? = none ∧ opcode ≠ .finish
  | .symbol opcode _ => ∃ space, opcode.operand? = some (.symbol space)
  | .property _ value => value.length < 2 ^ 32
  | .mediaRef _ reference => ∃ name, reference = .pending name
  | .flags _ | .setOffset _ | .setLength _ => True

/-- A regular call is carried out, whatever its media are. -/
theorem IsRegular.isAdmitted {call : EncoderCall} (h : call.IsRegular) : call.IsAdmitted := by
  cases call with
  | mediaRef => trivial
  | plain | symbol | flags | setOffset | setLength | property => exact h

end EncoderCall

namespace Encoder

/-- Makes calls in order, up to the first misuse. -/
def perform (encoder : Encoder) : List EncoderCall → Except EncoderMisuse Encoder
  | [] => .ok encoder
  | call :: calls => do
    let (encoder, _) ← encoder.call call
    encoder.perform calls

/-- From one state to another an encoder appends instructions and numbers the given names. -/
structure Appends (encoder : Encoder) (instructions : List Instruction) (names : List String)
    (after : Encoder) : Prop where
  order_eq : after.order = encoder.order
  bytes_eq : after.bytes = encoder.bytes ++ streamBytes instructions
  names_eq : after.names = encoder.names.addAll names
  operands_eq : assetOperands instructions = names.map after.names.number?
  unfinished : ∀ instruction ∈ instructions, instruction.opcode ≠ .finish
  spelled : ∀ registers : Registers, registers.length = encoder.registers.length →
    Spelled encoder.order registers encoder.bytes.length instructions
  length_eq : ∀ registers : Registers, registers.length = encoder.registers.length →
    (registers.afterAll instructions).length = after.registers.length

/-- An encoder that does nothing appends nothing. -/
theorem Appends.refl (encoder : Encoder) : Appends encoder [] [] encoder where
  order_eq := rfl
  bytes_eq := (List.append_nil _).symm
  names_eq := rfl
  operands_eq := rfl
  unfinished := fun _ hinstruction => absurd hinstruction List.not_mem_nil
  spelled := fun _ _ => trivial
  length_eq := fun _ hlength => hlength

/-- What is appended in two parts is appended as a whole. -/
theorem Appends.trans {encoder middle after : Encoder} {first second : List Instruction}
    {names others : List String} (hfirst : Appends encoder first names middle)
    (hsecond : Appends middle second others after) :
    Appends encoder (first ++ second) (names ++ others) after where
  order_eq := by rw [hsecond.order_eq, hfirst.order_eq]
  bytes_eq := by
    rw [hsecond.bytes_eq, hfirst.bytes_eq, streamBytes_append, List.append_assoc]
  names_eq := by rw [hsecond.names_eq, hfirst.names_eq, NameIndex.addAll_append]
  operands_eq := by
    rw [assetOperands_append, List.map_append, hfirst.operands_eq, hsecond.operands_eq,
      List.append_cancel_right_eq]
    apply List.map_congr_left
    intro name hname
    -- The names of the first part are numbered when the second part begins.
    have hthere : name ∈ middle.names.names := by
      rw [hfirst.names_eq]
      exact NameIndex.mem_addAll (.inr hname)
    rw [hsecond.names_eq, NameIndex.number?_addAll others hthere]
  unfinished := by
    intro instruction hinstruction
    rcases List.mem_append.mp hinstruction with hinstruction | hinstruction
    · exact hfirst.unfinished instruction hinstruction
    · exact hsecond.unfinished instruction hinstruction
  spelled := by
    intro registers hlength
    have hrest := hsecond.spelled _ (hfirst.length_eq registers hlength)
    rw [hfirst.order_eq, hfirst.bytes_eq, List.length_append] at hrest
    exact spelled_append.mpr ⟨hfirst.spelled registers hlength, hrest⟩
  length_eq := by
    intro registers hlength
    rw [Registers.afterAll_append]
    exact hsecond.length_eq _ (hfirst.length_eq registers hlength)

/-- What is written is appended, and numbers the names whose numbers are said. -/
theorem Writes.appends {encoder after : Encoder} {instructions : List Instruction}
    {later : Option UInt32 → Option UInt32} {events : Option UInt32 → List StreamEvent}
    {names : List String} (h : Writes encoder instructions after later events)
    (hnames : after.names = encoder.names.addAll names)
    (hnumbers : (events none).filterMap (·.number?) = names.map after.names.number?) :
    Appends encoder instructions names after where
  order_eq := h.order_eq
  bytes_eq := h.bytes_eq
  names_eq := hnames
  operands_eq := by rw [assetOperands_eq_numbers (encoder.readBy none), h.replay_eq, hnumbers]
  unfinished := h.unfinished
  spelled := by
    intro registers hlength
    have hread : registers = encoder.readBy registers.offset := by rw [readBy, ← hlength]
    rw [hread]
    exact h.spelled _
  length_eq := by
    intro registers hlength
    have hread : registers = encoder.readBy registers.offset := by rw [readBy, ← hlength]
    rw [hread, h.registers_eq]
    rfl

/-- A regular call that is carried out appends instructions, and numbers the medium that it names. -/
theorem appends_of_call {encoder after : Encoder} {call : EncoderCall} {answer : Option UInt32}
    (h : encoder.call call = .ok (after, answer)) (hregular : call.IsRegular) :
    ∃ instructions, Appends encoder instructions call.medium?.toList after := by
  obtain ⟨same, instructions, hcall, -, hnames, hwrites⟩ :=
    writes_call encoder hregular.isAdmitted
  rw [h] at hcall
  cases hcall
  refine ⟨instructions, hwrites.appends hnames ?_⟩
  cases call with
  | mediaRef property reference =>
      obtain ⟨name, rfl⟩ := hregular
      have hname : name ∈ after.names.names := by
        rw [hnames]
        exact NameIndex.mem_addAll (.inr (List.mem_singleton_self name))
      exact congrArg (fun number => [number]) (NameIndex.number?_of_mem hname).symm
  | symbol opcode index => cases opcode <;> rfl
  | plain | flags | setOffset | setLength | property => rfl

/-- Regular calls succeed and append instructions, and number the media that they name. -/
theorem appends_perform (encoder : Encoder) {calls : List EncoderCall}
    (h : ∀ call ∈ calls, call.IsRegular) :
    ∃ after instructions, encoder.perform calls = .ok after ∧
      Appends encoder instructions (EncoderCall.mediaNames calls) after := by
  -- A later call may name a medium that an earlier one numbered, so the names go along.
  induction calls generalizing encoder with
  | nil => exact ⟨encoder, [], rfl, Appends.refl encoder⟩
  | cons call calls ih =>
      have hregular := h call (List.mem_cons_self ..)
      obtain ⟨middle, -, hcall, -⟩ := writes_call encoder hregular.isAdmitted
      obtain ⟨first, hfirst⟩ := appends_of_call hcall hregular
      obtain ⟨after, second, hperform, hsecond⟩ :=
        ih middle fun other hother => h other (List.mem_cons_of_mem _ hother)
      refine ⟨after, first ++ second, ?_, ?_⟩
      · rw [perform, hcall]
        exact hperform
      · rw [EncoderCall.mediaNames_cons]
        exact hfirst.trans hsecond

/-- A stream written from the start and finished is decoded to instructions that refer to the media
that were named, by their places among the names; the names are kept in order of first mention. -/
theorem Appends.exists_decodeStream {order : ByteOrder} {instructions : List Instruction}
    {names : List String} {after : Encoder} (h : Appends (.start order) instructions names after) :
    ∃ original, decodeStream order after.finish.bytes = .ok original ∧
      assetOperands original = names.map (NameIndex.ofList names).number? ∧
      after.finish.names = names.eraseDups ∧ names.length ≤ after.finish.bytes.length := by
  have hnames : after.names = NameIndex.ofList names := h.names_eq
  obtain ⟨hstream, hspelled, hfinished⟩ :=
    finish_spelled h.bytes_eq h.unfinished (h.spelled .blank rfl)
  have hoperands : assetOperands (instructions ++ [ending (streamBytes instructions).length]) =
      names.map (NameIndex.ofList names).number? := by
    rw [assetOperands_append, h.operands_eq, hnames]
    exact List.append_nil _
  refine ⟨_, ?_, hoperands, ?_, ?_⟩
  · exact decodeStream_eq_ok_iff.mpr
      ⟨hspelled, hfinished, [], .inl rfl, by rw [hstream, List.append_nil]⟩
  · rw [← NameIndex.names_ofList, ← hnames]
    rfl
  · -- Every reference to a medium is an instruction, which takes a byte at least.
    have hcount := congrArg List.length hoperands
    rw [assetOperands, List.length_map, List.length_map] at hcount
    rw [hstream, ← hcount]
    exact Nat.le_trans (List.length_filter_le _ _) hspelled.length_le

/-- A stream that an encoder wrote with any admitted calls is decoded, and nothing follows its end. -/
theorem exists_decodeStream_of_record {order : ByteOrder} {calls : List EncoderCall} {after : Encoder}
    {answers : List (Option UInt32)} (hcalls : ∀ call ∈ calls, call.IsAdmitted)
    (h : (Encoder.start order).record calls = .ok (after, answers)) :
    ∃ original, decodeStream order after.finish.bytes = .ok original ∧
      after.finish.bytes = streamBytes original := by
  obtain ⟨same, written, later, hrecord, -, hwrites⟩ := writes_record (.start order) hcalls
  rw [h] at hrecord
  cases hrecord
  obtain ⟨original, -, -, -, -, hspelled, hfinished, hstream, -⟩ := hwrites.exists_readAll
  refine ⟨original, decodeStream_eq_ok_iff.mpr ⟨hspelled, hfinished, [], .inl rfl, ?_⟩, hstream⟩
  rw [List.append_nil, hstream]

end Encoder

end StageArchive
