import Mathlib.Data.List.Forall2
import StageArchive.Proofs.Instruction.Replay
/-!
# One stream in two byte orders

Two encoders with different byte orders that are given the same calls, apart from the bytes of values,
stay in step: their registers, names and lengths are the same at every moment. `Encoder.Mirrors` is what
they share, kept by every call; `Mirrors.exists_decodeStream` says that the two streams, each read in its
own order, are the same instructions at the same offsets with the same indices and words.
-/

namespace StageArchive

/-- Two operands are the same value, or as many bytes to copy. -/
inductive OperandValue.Alike : OperandValue → OperandValue → Prop
  | index (value : UInt32) : Alike (.index value) (.index value)
  | word (value : UInt32) : Alike (.word value) (.word value)
  | bytes {value other : Bytes} (h : other.length = value.length) : Alike (.bytes value) (.bytes other)

/-- Two operands of one kind that take as many bytes. -/
structure Operand.Alike (first second : Operand) : Prop where
  kind_eq : second.kind = first.kind
  length_eq : second.length = first.length
  value : first.value.Alike second.value

/-- Two instructions with the same opcode at the same offset whose operands are alike. -/
structure Instruction.Alike (first second : Instruction) : Prop where
  offset_eq : second.offset = first.offset
  opcode_eq : second.opcode = first.opcode
  length_eq : second.bytes.length = first.bytes.length
  operand : Option.Rel Operand.Alike first.operand second.operand

/-- Instructions that are alike one by one take as many bytes. -/
theorem length_streamBytes_of_alike {instructions others : List Instruction}
    (h : List.Forall₂ Instruction.Alike instructions others) :
    (streamBytes others).length = (streamBytes instructions).length := by
  induction h with
  | nil => rfl
  | cons hfirst _ ih =>
      rw [streamBytes_cons, streamBytes_cons, List.length_append, List.length_append, ih,
        hfirst.length_eq]

namespace Encoder

/-- What an encoder has written in an order since the start. -/
structure Wrote (order : ByteOrder) (encoder : Encoder) (instructions : List Instruction) :
    Prop where
  order_eq : encoder.order = order
  bytes_eq : encoder.bytes = streamBytes instructions
  unfinished : ∀ instruction ∈ instructions, instruction.opcode ≠ .finish
  spelled : Spelled order .blank 0 instructions
  length_eq : (Registers.blank.afterAll instructions).length = encoder.registers.length

/-- Nothing has been written at the start. -/
theorem Wrote.start (order : ByteOrder) : Wrote order (.start order) [] where
  order_eq := rfl
  bytes_eq := rfl
  unfinished := fun _ hinstruction => absurd hinstruction List.not_mem_nil
  spelled := trivial
  length_eq := rfl

/-- Another instruction is written behind those that are there. -/
theorem Wrote.emit {order : ByteOrder} {encoder after : Encoder} {instructions : List Instruction}
    {instruction : Instruction} (h : Wrote order encoder instructions)
    (hafter : after.order = encoder.order ∧ after.bytes = encoder.bytes ++ instruction.bytes)
    (hoffset : instruction.offset = encoder.bytes.length) (hfinish : instruction.opcode ≠ .finish)
    (hspelled : ∀ registers : Registers, registers.length = encoder.registers.length →
      instruction.Spelled order registers)
    (hregisters : ∀ registers : Registers, registers.length = encoder.registers.length →
      (registers.after instruction).length = after.registers.length) :
    Wrote order after (instructions ++ [instruction]) where
  order_eq := hafter.1.trans h.order_eq
  bytes_eq := by
    rw [hafter.2, h.bytes_eq, streamBytes_append, streamBytes_cons, streamBytes_nil,
      List.append_nil]
  unfinished := by
    intro other hother
    rcases List.mem_append.mp hother with hother | hother
    · exact h.unfinished other hother
    · obtain rfl := List.mem_singleton.mp hother
      exact hfinish
  spelled := by
    refine spelled_append.mpr ⟨h.spelled, ?_, hspelled _ h.length_eq, trivial⟩
    rw [hoffset, h.bytes_eq, Nat.zero_add]
  length_eq := by
    rw [Registers.afterAll_append]
    exact hregisters _ h.length_eq

/-- Two encoders that have written the same in two orders, apart from the bytes of values. -/
structure Mirrors (order other : ByteOrder) (first second : Encoder) : Prop where
  registers_eq : second.registers = first.registers
  names_eq : second.names = first.names
  written : ∃ instructions others, Wrote order first instructions ∧ Wrote other second others ∧
    List.Forall₂ Instruction.Alike instructions others

namespace Mirrors

variable {order other : ByteOrder} {first second : Encoder}

/-- Two encoders are in step at the start. -/
theorem start (order other : ByteOrder) : Mirrors order other (.start order) (.start other) where
  registers_eq := rfl
  names_eq := rfl
  written := ⟨[], [], .start order, .start other, .nil⟩

/-- As many bytes have been written in both orders. -/
theorem length_bytes_eq (h : Mirrors order other first second) :
    second.bytes.length = first.bytes.length := by
  obtain ⟨instructions, others, hfirst, hsecond, halike⟩ := h.written
  rw [hfirst.bytes_eq, hsecond.bytes_eq, length_streamBytes_of_alike halike]

/-- Both are given an instruction, and the two are alike. -/
theorem emit (h : Mirrors order other first second) {after counterpart : Encoder}
    {instruction reply : Instruction} (halike : instruction.Alike reply)
    (hafter : after.order = first.order ∧ after.bytes = first.bytes ++ instruction.bytes)
    (hcounterpart : counterpart.order = second.order ∧
      counterpart.bytes = second.bytes ++ reply.bytes)
    (hoffset : instruction.offset = first.bytes.length) (hfinish : instruction.opcode ≠ .finish)
    (hregisters : counterpart.registers = after.registers)
    (hnames : counterpart.names = after.names)
    (hspelled : ∀ registers : Registers, registers.length = first.registers.length →
      instruction.Spelled order registers ∧ reply.Spelled other registers)
    (hkept : ∀ registers : Registers, registers.length = first.registers.length →
      (registers.after instruction).length = after.registers.length ∧
        (registers.after reply).length = after.registers.length) :
    Mirrors order other after counterpart where
  registers_eq := hregisters
  names_eq := hnames
  written := by
    have hbytes := h.length_bytes_eq
    have hsame := h.registers_eq
    obtain ⟨instructions, others, hfirst, hsecond, hwritten⟩ := h.written
    refine ⟨_, _, hfirst.emit hafter hoffset hfinish (fun _ h => (hspelled _ h).1)
      (fun _ h => (hkept _ h).1), hsecond.emit hcounterpart ?_ ?_ ?_ ?_,
      List.rel_append hwritten (.cons halike .nil)⟩
    · rw [halike.offset_eq, hoffset, hbytes]
    · rw [halike.opcode_eq]
      exact hfinish
    · rw [hsame]
      exact fun _ h => (hspelled _ h).2
    · rw [hsame, hregisters]
      exact fun _ h => (hkept _ h).2

/-- Both are given an opcode without operand. -/
theorem plain (h : Mirrors order other first second) {opcode : Opcode}
    (hnone : opcode.operand? = none) (hfinish : opcode ≠ .finish) :
    Mirrors order other (first.emit opcode []) (second.emit opcode []) := by
  let instruction : Instruction := ⟨first.bytes.length, opcode, none, [opcode.toByte]⟩
  have hspelled (order : ByteOrder) (registers : Registers) :
      instruction.Spelled order registers := by
    simp [Instruction.Spelled, instruction, hnone]
  have hkept (registers : Registers) : registers.after instruction = registers := by
    cases opcode <;> first | rfl | cases hnone
  have halike : instruction.Alike instruction := ⟨rfl, rfl, rfl, .none⟩
  refine h.emit halike ⟨rfl, rfl⟩ ⟨rfl, rfl⟩ rfl hfinish h.registers_eq h.names_eq
    (fun _ _ => ⟨hspelled _ _, hspelled _ _⟩) fun registers hlength => ?_
  rw [hkept]
  exact ⟨hlength, hlength⟩

/-- Both are given an opcode with an index, which sets the length register when it is the one that
does. -/
theorem index (h : Mirrors order other first second) {after counterpart : Encoder} {opcode : Opcode}
    {kind : OperandKind} {value : UInt32} (hkind : opcode.operand? = some kind)
    (hindex : kind.isIndex = true)
    (hafter : after.order = first.order ∧ after.bytes = (first.symbol opcode value).bytes)
    (hcounterpart : counterpart.order = second.order ∧
      counterpart.bytes = (second.symbol opcode value).bytes)
    (hregisters : counterpart.registers = after.registers)
    (hnames : counterpart.names = after.names)
    (hlength : after.registers.length =
      if opcode = .setLength then some value else first.registers.length) :
    Mirrors order other after counterpart := by
  let instruction : Instruction := .ofIndex first.bytes.length opcode kind value
  have hspelled (order : ByteOrder) (registers : Registers) :
      instruction.Spelled order registers := Instruction.spelled_ofIndex hkind hindex
  have hkept (before : Registers) (hbefore : before.length = first.registers.length) :
      (before.after instruction).length = after.registers.length := by
    rw [hlength, ← hbefore]
    cases opcode <;> rfl
  have halike : instruction.Alike instruction :=
    ⟨rfl, rfl, rfl, .some ⟨rfl, rfl, .index value⟩⟩
  have hfinish : opcode ≠ .finish := by
    rintro rfl
    cases hkind
  exact h.emit halike hafter hcounterpart rfl hfinish hregisters hnames
    (fun _ _ => ⟨hspelled _ _, hspelled _ _⟩) fun _ hbefore => ⟨hkept _ hbefore, hkept _ hbefore⟩

/-- Both are given an opcode with a symbol. -/
theorem symbol (h : Mirrors order other first second) {opcode : Opcode} {space : Namespace}
    (hkind : opcode.operand? = some (.symbol space)) (value : UInt32) :
    Mirrors order other (first.symbol opcode value) (second.symbol opcode value) := by
  refine h.index hkind rfl ⟨rfl, rfl⟩ ⟨rfl, rfl⟩ h.registers_eq h.names_eq ?_
  rw [if_neg]
  · rfl
  · rintro rfl
    cases hkind

/-- Both are given flags, each in its own order. -/
theorem flags (h : Mirrors order other first second) (value : UInt32) :
    Mirrors order other (first.flags value) (second.flags value) := by
  let instruction (order : ByteOrder) : Instruction :=
    ⟨first.bytes.length, .flags, some ⟨.word, .word value, 4⟩,
      Opcode.flags.toByte :: order.encode value⟩
  have hspelled (order : ByteOrder) (registers : Registers) :
      (instruction order).Spelled order registers :=
    ⟨rfl, _, rfl, (ByteOrder.length_encode _ _).symm, rfl⟩
  have halike : (instruction order).Alike (instruction other) :=
    ⟨rfl, rfl, by simp [instruction], .some ⟨rfl, rfl, .word value⟩⟩
  obtain ⟨_, _, hfirst, hsecond, -⟩ := h.written
  refine h.emit halike ⟨rfl, ?_⟩ ⟨rfl, ?_⟩ rfl Opcode.noConfusion h.registers_eq h.names_eq
    (fun _ _ => ⟨hspelled _ _, hspelled _ _⟩) fun _ hlength => ⟨hlength, hlength⟩
  · rw [← hfirst.order_eq]
    rfl
  · rw [← hsecond.order_eq]
    rfl

/-- Both point the offset register at a property. -/
theorem setOffset (h : Mirrors order other first second) (property : UInt32) :
    Mirrors order other (first.setOffset property) (second.setOffset property) := by
  unfold Encoder.setOffset
  rw [h.registers_eq]
  split
  · exact h
  · exact h.index rfl rfl ⟨rfl, rfl⟩ ⟨rfl, rfl⟩ rfl h.names_eq rfl

/-- Both put a number of bytes in the length register. -/
theorem setLength (h : Mirrors order other first second) (length : UInt32) :
    Mirrors order other (first.setLength length) (second.setLength length) := by
  unfold Encoder.setLength
  rw [h.registers_eq]
  split
  · exact h
  · exact h.index rfl rfl ⟨rfl, rfl⟩ ⟨rfl, rfl⟩ rfl h.names_eq rfl

/-- Both are given as many bytes as the length register says. -/
theorem copy (h : Mirrors order other first second) {value counterpart : Bytes}
    (hlength : counterpart.length = value.length) (hvalue : value.length < 2 ^ 32)
    (hregister : first.registers.length = some (UInt32.ofNat value.length)) :
    Mirrors order other (first.emit .copy value) (second.emit .copy counterpart) := by
  let instruction (value : Bytes) : Instruction :=
    ⟨first.bytes.length, .copy, some ⟨.bytes, .bytes value, value.length⟩,
      Opcode.copy.toByte :: value⟩
  have hword : (UInt32.ofNat value.length).toNat = value.length := UInt32.toNat_ofNat_of_lt' hvalue
  have halike : (instruction value).Alike (instruction counterpart) :=
    ⟨rfl, rfl, congrArg (· + 1) hlength, .some ⟨rfl, hlength, .bytes hlength⟩⟩
  refine h.emit halike ⟨rfl, rfl⟩ ⟨rfl, rfl⟩ rfl Opcode.noConfusion h.registers_eq h.names_eq
    (fun registers hsame => ?_) fun _ hlength => ⟨hlength, hlength⟩
  rw [hregister] at hsame
  exact ⟨⟨rfl, value, rfl, rfl, rfl, _, hsame, hword⟩,
    ⟨rfl, counterpart, rfl, rfl, rfl, _, hsame, hword.trans hlength.symm⟩⟩

/-- Both give a property a value of one length, or both refuse it. -/
theorem property (h : Mirrors order other first second) (property : UInt32)
    {value counterpart : Bytes} (hlength : counterpart.length = value.length) :
    Matched (Mirrors order other) (first.property property value)
      (second.property property counterpart) := by
  unfold Encoder.property
  rw [hlength]
  split
  · rename_i hvalue
    exact .ok (((h.setOffset property).setLength _).copy hlength hvalue (by simp))
  · exact .error _

/-- Both give a property a medium, with one number. -/
theorem mediaRef (h : Mirrors order other first second) (property : UInt32) (reference : AssetRef) :
    Mirrors order other (first.mediaRef property reference).1
      (second.mediaRef property reference).1 := by
  have hset := h.setOffset property
  unfold Encoder.mediaRef
  cases reference with
  | pending name =>
      dsimp only
      rw [hset.names_eq]
      exact hset.index rfl rfl ⟨rfl, rfl⟩ ⟨rfl, rfl⟩ hset.registers_eq rfl rfl
  | resolved number => exact hset.index rfl rfl ⟨rfl, rfl⟩ ⟨rfl, rfl⟩ hset.registers_eq hset.names_eq rfl

/-- The finished streams are as long as each other and name the same media; each decodes in its own
order, to instructions that are alike. -/
theorem exists_decodeStream (h : Mirrors order other first second) :
    second.finish.bytes.length = first.finish.bytes.length ∧
      second.finish.names = first.finish.names ∧
      ∃ instructions others, decodeStream order first.finish.bytes = .ok instructions ∧
        decodeStream other second.finish.bytes = .ok others ∧
        List.Forall₂ Instruction.Alike instructions others := by
  have hnames : second.finish.names = first.finish.names := congrArg NameIndex.names h.names_eq
  obtain ⟨instructions, others, hfirst, hsecond, halike⟩ := h.written
  obtain ⟨hstream, hspelled, hfinished⟩ :=
    finish_spelled hfirst.bytes_eq hfirst.unfinished hfirst.spelled
  obtain ⟨hother, hspelledOther, hfinishedOther⟩ :=
    finish_spelled hsecond.bytes_eq hsecond.unfinished hsecond.spelled
  have hall : List.Forall₂ Instruction.Alike
      (instructions ++ [ending (streamBytes instructions).length])
      (others ++ [ending (streamBytes others).length]) := by
    rw [length_streamBytes_of_alike halike]
    exact List.rel_append halike (.cons ⟨rfl, rfl, rfl, .none⟩ .nil)
  refine ⟨?_, hnames, _, _, ?_, ?_, hall⟩
  · rw [hstream, hother, length_streamBytes_of_alike hall]
  · exact decodeStream_eq_ok_iff.mpr
      ⟨hspelled, hfinished, [], .inl rfl, by rw [hstream, List.append_nil]⟩
  · exact decodeStream_eq_ok_iff.mpr
      ⟨hspelledOther, hfinishedOther, [], .inl rfl, by rw [hother, List.append_nil]⟩

end Mirrors

end Encoder

end StageArchive
