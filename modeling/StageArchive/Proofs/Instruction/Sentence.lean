import StageArchive.Proofs.Instruction.Grammar
/-!
# The language of entity streams

A stream is described here by its bytes alone, without a decoder or instructions. A phrase is an opcode
with the bytes of its operand, and a `Sentence` is a run of phrases of which the last and no other ends
the stream. How far an operand reaches depends on its kind: an index up to the first byte that is no
digit, a word over four bytes, and raw bytes over as many as the last phrase that set the length
register says. `sentence_iff` says that exactly the sentences are read, each in one way, and
`decodeStream_accepts_sentences` what the instructions are that a stream decodes to.
-/

namespace StageArchive

/-- The bytes of an operand in front of others, where the length register has some value. -/
inductive IsOperand (length : Option Nat) : OperandKind → Bytes → Bytes → Prop
  /-- An index reaches as far as there are digits. -/
  | index {kind : OperandKind} {digits others : Bytes} (hkind : kind.isIndex = true)
      (hdigits : IndexCode.AreDigits digits) (hend : IndexCode.EndIndex others)
      (hfits : IndexCode.valueFrom 0 digits < 2 ^ 32) : IsOperand length kind digits others
  | word {bytes others : Bytes} (hlength : bytes.length = 4) : IsOperand length .word bytes others
  | bytes {content others : Bytes} (hlength : length = some content.length) :
      IsOperand length .bytes content others

/-- An instruction as it is spelled. -/
structure Phrase where
  opcode : Opcode
  operand : Bytes
  deriving DecidableEq, Repr

namespace Phrase

/-- The bytes of a phrase. -/
def bytes (phrase : Phrase) : Bytes :=
  phrase.opcode.toByte :: phrase.operand

/-- The value of the length register after a phrase. -/
def lengthAfter (phrase : Phrase) (length : Option Nat) : Option Nat :=
  if phrase.opcode = .setLength then some (IndexCode.valueFrom 0 phrase.operand) else length

/-- A phrase without an operand leaves the length register as it is. -/
theorem lengthAfter_of_none {phrase : Phrase} (h : phrase.opcode.operand? = none)
    (length : Option Nat) : phrase.lengthAfter length = length := by
  refine if_neg fun hopcode => ?_
  rw [hopcode] at h
  cases h

end Phrase

/-- Bytes begin with phrases, of which the last and no other ends the stream, and go on with others. -/
inductive Sentence : Option Nat → Bytes → List Phrase → Bytes → Prop
  | finish (length : Option Nat) (others : Bytes) :
      Sentence length (Phrase.bytes ⟨.finish, []⟩ ++ others) [⟨.finish, []⟩] others
  | plain {length : Option Nat} {opcode : Opcode} {bytes others : Bytes} {phrases : List Phrase}
      (hopcode : opcode ≠ .finish) (hnone : opcode.operand? = none)
      (hrest : Sentence length bytes phrases others) :
      Sentence length (Phrase.bytes ⟨opcode, []⟩ ++ bytes) (⟨opcode, []⟩ :: phrases) others
  | operand {length : Option Nat} {opcode : Opcode} {kind : OperandKind}
      {operand bytes others : Bytes} {phrases : List Phrase} (hkind : opcode.operand? = some kind)
      (hoperand : IsOperand length kind operand bytes)
      (hrest : Sentence (Phrase.lengthAfter ⟨opcode, operand⟩ length) bytes phrases others) :
      Sentence length (Phrase.bytes ⟨opcode, operand⟩ ++ bytes) (⟨opcode, operand⟩ :: phrases) others

/-- What the bytes of an operand of some kind say. -/
inductive Encodes (order : ByteOrder) : OperandKind → OperandValue → Bytes → Prop
  | index {kind : OperandKind} {value : UInt32} {digits : Bytes} (hkind : kind.isIndex = true)
      (hdigits : IndexCode.Spells value digits) : Encodes order kind (.index value) digits
  | word (value : UInt32) : Encodes order .word (.word value) (order.encode value)
  | bytes (content : Bytes) : Encodes order .bytes (.bytes content) content

/-- An instruction as it is spelled. -/
def Instruction.phrase (instruction : Instruction) : Phrase :=
  ⟨instruction.opcode, instruction.bytes.tail⟩

/-- An instruction lies in a stream at its offset. Its operand is of the kind that its opcode takes, and
the range of the operand, which begins behind the opcode byte, lies inside the instruction and holds
the bytes that say its value. -/
structure Instruction.LiesIn (order : ByteOrder) (stream : Bytes) (instruction : Instruction) :
    Prop where
  bytes_eq : instruction.bytes = instruction.phrase.bytes
  slice_eq : (stream.drop instruction.offset).take instruction.bytes.length = instruction.bytes
  kind_eq : instruction.operand.map (·.kind) = instruction.opcode.operand?
  operand : ∀ operand ∈ instruction.operand,
    1 + operand.length ≤ instruction.bytes.length ∧
      Encodes order operand.kind operand.value
        ((stream.drop (instruction.offset + 1)).take operand.length)

section Operands

variable {order : ByteOrder} {registers : Registers}

/-- Bytes that spell an operand are the bytes of such an operand and say its value. -/
theorem Operand.Spells.isOperand {operand : Operand} {bytes others : Bytes}
    (h : operand.Spells order registers bytes)
    (hend : operand.kind.isIndex = true → IndexCode.EndIndex others) :
    IsOperand (registers.length.map (·.toNat)) operand.kind bytes others ∧
      Encodes order operand.kind operand.value bytes := by
  obtain ⟨kind, value, length⟩ := operand
  obtain ⟨-, hvalue⟩ := h
  have hindex (number : UInt32) (hkind : kind.isIndex = true)
      (hspells : IndexCode.Spells number bytes) :
      IsOperand (registers.length.map (·.toNat)) kind bytes others ∧
        Encodes order kind (.index number) bytes := by
    refine ⟨.index hkind hspells.digits (hend hkind) ?_, .index hkind hspells⟩
    rw [hspells.value_eq]
    exact number.toNat_lt
  dsimp only at hvalue hend ⊢
  split at hvalue
  · exact hindex _ rfl hvalue
  · exact hindex _ rfl hvalue
  · exact hindex _ rfl hvalue
  · obtain rfl := hvalue
    exact ⟨.word (ByteOrder.length_encode ..), .word _⟩
  · obtain ⟨rfl, count, hregister, hcount⟩ := hvalue
    refine ⟨.bytes ?_, .bytes _⟩
    rw [hregister, ← hcount]
    rfl
  · exact hvalue.elim

/-- The bytes of an operand spell one. -/
theorem IsOperand.exists_spells {kind : OperandKind} {bytes others : Bytes} (order : ByteOrder)
    (h : IsOperand (registers.length.map (·.toNat)) kind bytes others) :
    ∃ operand : Operand, operand.kind = kind ∧ operand.Spells order registers bytes ∧
      (kind.isIndex = true → IndexCode.EndIndex others) := by
  cases h with
  | index hkind hdigits hend hfits =>
      have hspells : IndexCode.Spells (UInt32.ofNat (IndexCode.valueFrom 0 bytes)) bytes :=
        ⟨hdigits, (UInt32.toNat_ofNat_of_lt' hfits).symm⟩
      refine ⟨⟨kind, .index (UInt32.ofNat (IndexCode.valueFrom 0 bytes)), bytes.length⟩, rfl,
        ⟨rfl, ?_⟩, fun _ => hend⟩
      cases kind with
      | symbol | count | asset => exact hspells
      | word | bytes => cases hkind
  | word hlength =>
      obtain ⟨value, hvalue⟩ : ∃ value, order.word? bytes 0 = some value := by
        match bytes, hlength with
        | [first, second, third, fourth], _ => exact ⟨_, rfl⟩
      have hbytes := ByteOrder.eq_encode_of_word? hvalue
      rw [List.drop_zero, List.drop_of_length_le (by omega), List.append_nil] at hbytes
      exact ⟨⟨.word, .word value, bytes.length⟩, rfl, ⟨rfl, hbytes⟩, nofun⟩
  | bytes hlength =>
      obtain ⟨count, hregister, hcount⟩ := Option.map_eq_some_iff.mp hlength
      exact ⟨⟨.bytes, .bytes bytes, bytes.length⟩, rfl, ⟨rfl, rfl, count, hregister, hcount⟩, nofun⟩

variable {instruction : Instruction}

/-- A spelled instruction is its opcode byte and the bytes of its operand. -/
theorem Instruction.Spelled.bytes_eq_phrase (h : instruction.Spelled order registers) :
    instruction.bytes = instruction.phrase.bytes := by
  obtain ⟨tail, htail⟩ := h.bytes_eq
  rw [phrase, Phrase.bytes, htail]
  rfl

/-- A spelled instruction has no operand, or one whose bytes stand behind its opcode byte. -/
theorem Instruction.Spelled.operand_cases (h : instruction.Spelled order registers) :
    instruction.opcode.operand? = none ∧ instruction.operand = none ∧
        instruction.phrase = ⟨instruction.opcode, []⟩ ∨
      ∃ operand, instruction.opcode.operand? = some operand.kind ∧
        instruction.operand = some operand ∧
        operand.Spells order registers instruction.phrase.operand := by
  obtain ⟨offset, opcode, operand, bytes⟩ := instruction
  unfold Instruction.Spelled at h
  split at h
  · rename_i hkind hoperand
    obtain rfl : bytes = [opcode.toByte] := h
    exact .inl ⟨hkind, hoperand, rfl⟩
  · rename_i kind operand hkind hoperand
    obtain ⟨rfl, tail, htail, hspells⟩ := h
    obtain rfl : bytes = opcode.toByte :: tail := htail
    exact .inr ⟨operand, hkind, hoperand, hspells⟩
  · exact h.elim

/-- The length register after a spelled instruction has the value that its bytes give it. -/
theorem Instruction.Spelled.lengthAfter_eq (h : instruction.Spelled order registers) :
    (registers.after instruction).length.map (·.toNat) =
      instruction.phrase.lengthAfter (registers.length.map (·.toNat)) := by
  by_cases hopcode : instruction.opcode = .setLength
  · rcases h.operand_cases with ⟨hnone, -⟩ | ⟨⟨kind, value, length⟩, hkind, hoperand, -, hvalue⟩
    · rw [hopcode] at hnone
      cases hnone
    · rw [hopcode] at hkind
      obtain rfl : OperandKind.count = kind := Option.some.inj hkind
      cases value with
      | index value =>
          have hspells : IndexCode.Spells value instruction.phrase.operand := hvalue
          simp only [Registers.after, hopcode, index?, hoperand, Option.bind_some,
            OperandValue.index?, Option.map_some, ← hspells.value_eq]
          exact (if_pos hopcode).symm
      | word | bytes => exact hvalue.elim
  · rw [Phrase.lengthAfter, if_neg (show instruction.phrase.opcode ≠ .setLength from hopcode)]
    obtain ⟨offset, opcode, operand, bytes⟩ := instruction
    cases opcode <;> first | rfl | exact absurd rfl hopcode

end Operands

section Sentences

variable {order : ByteOrder} {registers : Registers}

/-- A finished list of spelled instructions is a sentence, whatever follows it. -/
theorem sentence_of_spelled {position : Nat} {instructions : List Instruction} (others : Bytes)
    (hspelled : Spelled order registers position instructions)
    (hfinished : IsFinished instructions) :
    Sentence (registers.length.map (·.toNat)) (streamBytes instructions ++ others)
      (instructions.map (·.phrase)) others := by
  -- The length register of each phrase is the one that the phrases before it leave.
  induction instructions generalizing registers position with
  | nil => exact absurd hfinished not_isFinished_nil
  | cons instruction rest ih =>
      obtain ⟨-, hinstruction, hrest⟩ := hspelled
      rw [streamBytes_cons, List.append_assoc, List.map_cons, hinstruction.bytes_eq_phrase]
      rcases isFinished_cons.mp hfinished with ⟨hfinish, rfl⟩ | ⟨hfinish, hfinished⟩
      · rcases hinstruction.operand_cases with ⟨-, -, hphrase⟩ | ⟨operand, hkind, -⟩
        · rw [hphrase, hfinish]
          exact .finish _ others
        · rw [hfinish] at hkind
          cases hkind
      · have hothers := ih hrest hfinished
        rw [hinstruction.lengthAfter_eq] at hothers
        rcases hinstruction.operand_cases with ⟨hnone, -, hphrase⟩ | ⟨operand, hkind, -, hspells⟩
        · rw [Phrase.lengthAfter_of_none hnone] at hothers
          rw [hphrase]
          exact .plain hfinish hnone hothers
        · have hend := hfinished.endIndex hrest others
          exact .operand hkind (hspells.isOperand fun _ => hend).1 hothers

/-- An instruction that spells the first phrase goes in front of those that spell the others. -/
theorem exists_spelled_cons {opcode : Opcode} {operand : Option Operand} {tail bytes others : Bytes}
    {phrases : List Phrase} {position : Nat} (hopcode : opcode ≠ .finish)
    (hinstruction : Instruction.Spelled order registers
      ⟨position, opcode, operand, opcode.toByte :: tail⟩)
    (hrest : ∃ instructions,
      Spelled order (registers.after ⟨position, opcode, operand, opcode.toByte :: tail⟩)
        (position + (opcode.toByte :: tail).length) instructions ∧ IsFinished instructions ∧
      bytes = streamBytes instructions ++ others ∧ instructions.map (·.phrase) = phrases) :
    ∃ instructions, Spelled order registers position instructions ∧ IsFinished instructions ∧
      Phrase.bytes ⟨opcode, tail⟩ ++ bytes = streamBytes instructions ++ others ∧
      instructions.map (·.phrase) = ⟨opcode, tail⟩ :: phrases := by
  obtain ⟨instructions, hspelled, hfinished, rfl, rfl⟩ := hrest
  refine ⟨⟨position, opcode, operand, opcode.toByte :: tail⟩ :: instructions,
    ⟨rfl, hinstruction, hspelled⟩, isFinished_cons.mpr (.inr ⟨hopcode, hfinished⟩), ?_, rfl⟩
  rw [streamBytes_cons, List.append_assoc]
  rfl

/-- A sentence is spelled by a finished list of instructions, wherever it begins. -/
theorem Sentence.exists_spelled {length : Option Nat} {bytes others : Bytes} {phrases : List Phrase}
    (h : Sentence length bytes phrases others) (order : ByteOrder)
    (hlength : registers.length.map (·.toNat) = length) (position : Nat) :
    ∃ instructions, Spelled order registers position instructions ∧ IsFinished instructions ∧
      bytes = streamBytes instructions ++ others ∧ instructions.map (·.phrase) = phrases := by
  -- The instructions for the rest begin where the first ends, with the registers it leaves.
  induction h generalizing registers position with
  | finish length others =>
      exact ⟨[⟨position, .finish, none, [Opcode.finish.toByte]⟩], ⟨rfl, rfl, trivial⟩,
        isFinished_cons.mpr (.inl ⟨rfl, rfl⟩), rfl, rfl⟩
  | @plain length opcode bytes others phrases hopcode hnone hrest ih =>
      have hspelled : Instruction.Spelled order registers ⟨position, opcode, none, [opcode.toByte]⟩ := by
        simp only [Instruction.Spelled, hnone]
      have hafter := hspelled.lengthAfter_eq
      rw [Phrase.lengthAfter_of_none hnone, hlength] at hafter
      exact exists_spelled_cons hopcode hspelled (ih hafter _)
  | @operand length opcode kind operand bytes others phrases hkind hoperand hrest ih =>
      subst hlength
      obtain ⟨found, rfl, hspells, -⟩ := hoperand.exists_spells order
      have hspelled : Instruction.Spelled order registers
          ⟨position, opcode, some found, opcode.toByte :: operand⟩ := by
        simp only [Instruction.Spelled, hkind]
        exact ⟨trivial, operand, rfl, hspells⟩
      have hopcode : opcode ≠ .finish := by
        rintro rfl
        cases hkind
      exact exists_spelled_cons hopcode hspelled (ih hspelled.lengthAfter_eq _)

/-- A finished list of spelled instructions is read from the start of a stream, whatever follows it. -/
theorem readAll_streamBytes {instructions : List Instruction} (others : Bytes)
    (hspelled : Spelled order .blank 0 instructions) (hfinished : IsFinished instructions) :
    ∃ last, (Decoder.start order (streamBytes instructions ++ others)).readAll =
        .ok (instructions, last) ∧ last.rest = others ∧
      last.position = (streamBytes instructions).length := by
  have hstart : (Decoder.start order (streamBytes instructions ++ others)).rest =
      streamBytes instructions ++ others := rfl
  obtain ⟨last, hall, hrest, hposition⟩ := Decoder.readAll_append rfl hstart hspelled hfinished
  exact ⟨last, hall, hrest, hposition.trans (Nat.zero_add _)⟩

/-- What is read from the start of a stream is such a list, and the decoder stands behind it. -/
theorem eq_streamBytes_of_readAll {stream : Bytes} {instructions : List Instruction} {last : Decoder}
    (h : (Decoder.start order stream).readAll = .ok (instructions, last)) :
    Spelled order .blank 0 instructions ∧ IsFinished instructions ∧
      stream = streamBytes instructions ++ last.rest ∧
      last.position = (streamBytes instructions).length := by
  obtain ⟨hspelled, hfinished, hstream⟩ := Decoder.eq_append_of_readAll rfl h
  have hspelled : Spelled order .blank 0 instructions := hspelled
  have hstream : stream = streamBytes instructions ++ last.rest := hstream
  obtain ⟨same, hsame, -, hposition⟩ := readAll_streamBytes last.rest hspelled hfinished
  rw [← hstream, h] at hsame
  obtain ⟨-, rfl⟩ := Prod.mk.inj (Except.ok.inj hsame)
  exact ⟨hspelled, hfinished, hstream, hposition⟩

/-- Exactly the sentences are read, each as its phrases and up to what follows it. -/
theorem sentence_iff {stream others : Bytes} {phrases : List Phrase} (order : ByteOrder) :
    Sentence none stream phrases others ↔ ∃ instructions last,
      (Decoder.start order stream).readAll = .ok (instructions, last) ∧
        instructions.map (·.phrase) = phrases ∧ last.rest = others := by
  constructor
  · intro h
    have hblank : Registers.blank.length.map (·.toNat) = none := rfl
    obtain ⟨instructions, hspelled, hfinished, rfl, hphrases⟩ := h.exists_spelled order hblank 0
    obtain ⟨last, hall, hrest, -⟩ := readAll_streamBytes others hspelled hfinished
    exact ⟨instructions, last, hall, hphrases, hrest⟩
  · rintro ⟨instructions, last, hall, rfl, rfl⟩
    obtain ⟨hspelled, hfinished, hstream, -⟩ := eq_streamBytes_of_readAll hall
    have hsentence := sentence_of_spelled last.rest hspelled hfinished
    rwa [← hstream] at hsentence

/-- A spelled instruction lies in a stream where its bytes are. -/
theorem Instruction.Spelled.liesIn {instruction : Instruction} {front : Bytes}
    (h : instruction.Spelled order registers) (hoffset : instruction.offset = front.length)
    (rest : Bytes) : instruction.LiesIn order (front ++ (instruction.bytes ++ rest)) := by
  have hdrop : (front ++ (instruction.bytes ++ rest)).drop instruction.offset =
      instruction.bytes ++ rest := List.drop_left' hoffset.symm
  refine ⟨h.bytes_eq_phrase, by rw [hdrop, List.take_left], ?_, fun operand hmem => ?_⟩
  · rcases h.operand_cases with ⟨hnone, hoperand, -⟩ | ⟨operand, hkind, hoperand, -⟩
    · rw [hnone, hoperand]
      rfl
    · rw [hkind, hoperand]
      rfl
  · rcases h.operand_cases with ⟨-, hoperand, -⟩ | ⟨found, -, hoperand, hspells⟩
    · cases hoperand.symm.trans hmem
    · cases hoperand.symm.trans hmem
      have hlength := hspells.1
      have htail : (front ++ (instruction.bytes ++ rest)).drop (instruction.offset + 1) =
          instruction.phrase.operand ++ rest := by
        rw [← List.drop_drop, hdrop, h.bytes_eq_phrase]
        rfl
      have hbytes := congrArg List.length h.bytes_eq_phrase
      refine ⟨Nat.le_of_eq ?_, ?_⟩
      · rw [hlength, hbytes, Phrase.bytes, List.length_cons, Nat.add_comm]
      · rw [htail, hlength, List.take_left]
        exact (hspells.isOperand fun _ => IndexCode.endIndex_nil).2

/-- Instructions that are spelled from the start of a stream begin where those before them end. -/
theorem Spelled.of_append {position : Nat} {front back : List Instruction}
    {instruction : Instruction}
    (h : Spelled order registers position (front ++ instruction :: back)) :
    instruction.offset = position + (streamBytes front).length ∧
      instruction.Spelled order (registers.afterAll front) := by
  obtain ⟨-, hoffset, hspelled, -⟩ := spelled_append.mp h
  exact ⟨hoffset, hspelled⟩

end Sentences

/-- A stream decodes exactly when it is a sentence in front of nothing or of one zero byte, and then it
decodes to that sentence: one instruction for each phrase, of which each begins where those before it
end, their bytes being all of the stream but the padding, and each operand lies in its instruction and
holds the bytes that say its value. Reading alone asks nothing of what follows the end of the stream:
with anything else there the instructions and the end are the same. -/
theorem decodeStream_accepts_sentences (order : ByteOrder) (stream : Bytes) :
    ((∃ instructions, decodeStream order stream = .ok instructions) ↔
      ∃ phrases pad, Sentence none stream phrases pad ∧ IsPadding pad) ∧
    (∀ instructions phrases pad, decodeStream order stream = .ok instructions →
      Sentence none stream phrases pad →
        instructions.map (·.phrase) = phrases ∧ stream = streamBytes instructions ++ pad ∧
        (∀ front instruction back, instructions = front ++ instruction :: back →
          instruction.offset = (streamBytes front).length) ∧
        ∀ instruction ∈ instructions, instruction.LiesIn order stream) ∧
    (∀ instructions last, (Decoder.start order stream).readAll = .ok (instructions, last) →
      stream.take last.position = streamBytes instructions ∧
      ∀ others, ∃ after,
        (Decoder.start order (stream.take last.position ++ others)).readAll =
          .ok (instructions, after) ∧ after.position = last.position) := by
  refine ⟨⟨?_, ?_⟩, ?_, ?_⟩
  · rintro ⟨instructions, h⟩
    obtain ⟨hspelled, hfinished, pad, hpad, rfl⟩ := decodeStream_eq_ok_iff.mp h
    exact ⟨_, pad, sentence_of_spelled pad hspelled hfinished, hpad⟩
  · rintro ⟨phrases, pad, hsentence, hpad⟩
    have hblank : Registers.blank.length.map (·.toNat) = none := rfl
    obtain ⟨instructions, hspelled, hfinished, hstream, -⟩ :=
      hsentence.exists_spelled order hblank 0
    exact ⟨instructions, decodeStream_eq_ok_iff.mpr ⟨hspelled, hfinished, pad, hpad, hstream⟩⟩
  · intro instructions phrases pad h hsentence
    obtain ⟨hspelled, hfinished, others, -, hstream⟩ := decodeStream_eq_ok_iff.mp h
    -- Reading is a function, so the sentence found is the one that was read.
    obtain ⟨last, hall, hrest, -⟩ := readAll_streamBytes others hspelled hfinished
    obtain ⟨found, after, hfound, hphrases, hpad⟩ := (sentence_iff order).mp hsentence
    rw [hstream, hall] at hfound
    obtain ⟨rfl, rfl⟩ := Prod.mk.inj (Except.ok.inj hfound)
    obtain rfl : others = pad := hrest.symm.trans hpad
    refine ⟨hphrases, hstream, fun front instruction back heq => ?_, fun instruction hmem => ?_⟩
    · subst heq
      exact hspelled.of_append.1.trans (Nat.zero_add _)
    · obtain ⟨front, back, rfl⟩ := List.append_of_mem hmem
      obtain ⟨hoffset, hinstruction⟩ := hspelled.of_append
      rw [hstream, streamBytes_append, streamBytes_cons, List.append_assoc, List.append_assoc]
      exact hinstruction.liesIn (hoffset.trans (Nat.zero_add _)) _
  · intro instructions last hall
    obtain ⟨hspelled, hfinished, hstream, hposition⟩ := eq_streamBytes_of_readAll hall
    have htake : stream.take last.position = streamBytes instructions := by
      rw [hposition, hstream, List.take_left]
    refine ⟨htake, fun others => ?_⟩
    obtain ⟨after, hafter, -, hend⟩ := readAll_streamBytes others hspelled hfinished
    exact ⟨after, htake ▸ hafter, hend.trans hposition.symm⟩

/-- A length with a leading zero, raw bytes that look like phrases, a word with zero bytes, an index of no
digits and padding. -/
theorem decodeStream_accepts_padded_sentence :
    Sentence none [0x8b, 0, 2, 0x8c, 0x81, 5, 0x89, 0, 0, 1, 0, 0x88, 0x80, 0]
        [⟨.setLength, [0, 2]⟩, ⟨.copy, [0x81, 5]⟩, ⟨.flags, [0, 0, 1, 0]⟩, ⟨.name, []⟩, ⟨.finish, []⟩]
        [0] ∧
      ∃ instructions,
        decodeStream .big [0x8b, 0, 2, 0x8c, 0x81, 5, 0x89, 0, 0, 1, 0, 0x88, 0x80, 0] =
          .ok instructions ∧
        streamBytes instructions ++ [0] =
          [0x8b, 0, 2, 0x8c, 0x81, 5, 0x89, 0, 0, 1, 0, 0x88, 0x80, 0] ∧
        ∀ instruction ∈ instructions, instruction.LiesIn .big
          [0x8b, 0, 2, 0x8c, 0x81, 5, 0x89, 0, 0, 1, 0, 0x88, 0x80, 0] := by
  have hsentence : Sentence none [0x8b, 0, 2, 0x8c, 0x81, 5, 0x89, 0, 0, 1, 0, 0x88, 0x80, 0]
      [⟨.setLength, [0, 2]⟩, ⟨.copy, [0x81, 5]⟩, ⟨.flags, [0, 0, 1, 0]⟩, ⟨.name, []⟩, ⟨.finish, []⟩]
      [0] := by
    have hname : Sentence (some 2) [0x88, 0x80, 0] [⟨.name, []⟩, ⟨.finish, []⟩] [0] :=
      @Sentence.operand _ .name _ [] _ _ _ rfl
        (.index rfl (by decide) (IndexCode.endIndex_cons rfl) (by decide)) (.finish _ [0])
    have hflags : Sentence (some 2) [0x89, 0, 0, 1, 0, 0x88, 0x80, 0]
        [⟨.flags, [0, 0, 1, 0]⟩, ⟨.name, []⟩, ⟨.finish, []⟩] [0] :=
      @Sentence.operand _ .flags _ [0, 0, 1, 0] _ _ _ rfl (.word rfl) hname
    have hcopy : Sentence (some 2) [0x8c, 0x81, 5, 0x89, 0, 0, 1, 0, 0x88, 0x80, 0]
        [⟨.copy, [0x81, 5]⟩, ⟨.flags, [0, 0, 1, 0]⟩, ⟨.name, []⟩, ⟨.finish, []⟩] [0] :=
      @Sentence.operand _ .copy _ [0x81, 5] _ _ _ rfl (.bytes rfl) hflags
    exact @Sentence.operand _ .setLength _ [0, 2] _ _ _ rfl
      (.index rfl (by decide) (IndexCode.endIndex_cons rfl) (by decide)) hcopy
  obtain ⟨haccepts, hreads, -⟩ := decodeStream_accepts_sentences .big
    [0x8b, 0, 2, 0x8c, 0x81, 5, 0x89, 0, 0, 1, 0, 0x88, 0x80, 0]
  obtain ⟨instructions, h⟩ := haccepts.mpr ⟨_, _, hsentence, .inr rfl⟩
  obtain ⟨-, hstream, -, hlies⟩ := hreads instructions _ _ h hsentence
  exact ⟨hsentence, instructions, h, hstream.symm, hlies⟩

end StageArchive
