import Mathlib.Data.List.Forall2
import StageArchive.Entity.Relinking
import StageArchive.Proofs.Instruction.Transcript
import StageArchive.Proofs.Outcome
/-!
# Replacing the numbers of media in a stream

`Renumbers position instructions numbers linked` says that `linked` are the given instructions, laid
out from a position on, with the given numbers in place of those that refer to media, and `renumber`
computes them. `relinkInstructions_eq` splits linking in two: first every number is resolved, once
and in order, whatever else the resolution does; then the stream is laid out again. What the second
part changes and what it leaves alone is shown by induction on `Renumbers`.
-/

namespace StageArchive

/-- The number by which an instruction refers to a medium. -/
def Instruction.assetNumber? (instruction : Instruction) : Option UInt32 :=
  if instruction.opcode = .copyMediaRef then instruction.index? else none

/-- No fewer bytes spell the instruction's index operand. -/
def Instruction.HasShortestIndex (instruction : Instruction) : Prop :=
  ∀ number digits, instruction.index? = some number → IndexCode.Spells number digits →
    instruction.bytes.length ≤ digits.length + 1

/-- The numbers by which instructions refer to media, in order. -/
def assetNumbers (instructions : List Instruction) : List UInt32 :=
  instructions.filterMap (·.assetNumber?)

/-- Instructions are laid out from a position on, with numbers in place of those that refer to
media. -/
inductive Renumbers : Nat → List Instruction → List UInt32 → List Instruction → Prop where
  | nil (position : Nat) : Renumbers position [] [] []
  | asset {position : Nat} {instruction : Instruction} {rest linked : List Instruction}
      {number : UInt32} {numbers : List UInt32} (hasset : instruction.opcode = .copyMediaRef)
      (hrest : Renumbers
        (position + (Instruction.ofIndex position .copyMediaRef .asset number).bytes.length)
        rest numbers linked) :
      Renumbers position (instruction :: rest) (number :: numbers)
        (.ofIndex position .copyMediaRef .asset number :: linked)
  | other {position : Nat} {instruction : Instruction} {rest linked : List Instruction}
      {numbers : List UInt32} (hasset : instruction.opcode ≠ .copyMediaRef)
      (hrest : Renumbers (position + instruction.bytes.length) rest numbers linked) :
      Renumbers position (instruction :: rest) numbers
        ({ instruction with offset := position } :: linked)

/-- Lays instructions out from a position on, with numbers in place of those that refer to media. -/
def renumber (position : Nat) : List Instruction → List UInt32 → List Instruction
  | [], _ => []
  | instruction :: rest, numbers =>
    match instruction.opcode, numbers with
    | .copyMediaRef, number :: numbers =>
      let linked := Instruction.ofIndex position .copyMediaRef .asset number
      linked :: renumber (position + linked.bytes.length) rest numbers
    | _, numbers =>
      { instruction with offset := position } ::
        renumber (position + instruction.bytes.length) rest numbers

section Layout

variable {instruction : Instruction}

/-- An instruction that refers to a medium gets the next number. -/
theorem renumber_of_asset (h : instruction.opcode = .copyMediaRef) (position : Nat)
    (rest : List Instruction) (number : UInt32) (numbers : List UInt32) :
    renumber position (instruction :: rest) (number :: numbers) =
      .ofIndex position .copyMediaRef .asset number ::
        renumber (position + (Instruction.ofIndex position .copyMediaRef .asset number).bytes.length)
          rest numbers := by
  simp only [renumber, h]

/-- Any other instruction is moved. -/
theorem renumber_of_ne (h : instruction.opcode ≠ .copyMediaRef) (position : Nat)
    (rest : List Instruction) (numbers : List UInt32) :
    renumber position (instruction :: rest) numbers =
      { instruction with offset := position } ::
        renumber (position + instruction.bytes.length) rest numbers := by
  rw [renumber]
  intro number others hasset
  exact absurd hasset h

end Layout

/-- The operands of some instructions that refer to media come before those of the others. -/
theorem assetOperands_cons (instruction : Instruction) (rest : List Instruction) :
    assetOperands (instruction :: rest) =
      (if instruction.opcode = .copyMediaRef then [instruction.index?] else []) ++
        assetOperands rest := by
  by_cases h : instruction.opcode = .copyMediaRef <;> simp [assetOperands, h]

/-- Whether a list of instructions is finished depends on the opcodes alone. -/
theorem IsFinished.of_opcodes {first second : List Instruction}
    (hopcodes : second.map (·.opcode) = first.map (·.opcode)) (h : IsFinished first) :
    IsFinished second := by
  induction first generalizing second with
  | nil => exact absurd h not_isFinished_nil
  | cons instruction rest ih =>
      cases second with
      | nil => cases hopcodes
      | cons other others =>
          obtain ⟨hopcode, hrest⟩ := List.cons.inj hopcodes
          have hopcode : other.opcode = instruction.opcode := hopcode
          rcases isFinished_cons.mp h with ⟨hfinish, rfl⟩ | ⟨hfinish, hfinished⟩
          · exact isFinished_cons.mpr (.inl ⟨hopcode.trans hfinish, List.map_eq_nil_iff.mp hrest⟩)
          · exact isFinished_cons.mpr (.inr ⟨hopcode ▸ hfinish, ih hrest hfinished⟩)

namespace Instruction

variable {order : ByteOrder} {registers : Registers} {instruction : Instruction}

/-- A spelled instruction that refers to a medium has the medium's number as its operand, and digits
that spell it behind its opcode. -/
theorem Spelled.asset_eq (h : instruction.Spelled order registers)
    (hasset : instruction.opcode = .copyMediaRef) :
    ∃ number digits, instruction.operand = some ⟨.asset, .index number, digits.length⟩ ∧
      instruction.bytes = Opcode.copyMediaRef.toByte :: digits ∧ IndexCode.Spells number digits := by
  obtain ⟨offset, opcode, operand, bytes⟩ := instruction
  obtain rfl : opcode = .copyMediaRef := hasset
  cases operand with
  | none => exact h.elim
  | some operand =>
      obtain ⟨hkind, digits, hbytes, hlength, hvalue⟩ := h
      obtain ⟨kind, value, length⟩ := operand
      obtain rfl : kind = .asset := hkind
      obtain rfl : length = digits.length := hlength
      cases value with
      | index number => exact ⟨number, digits, rfl, hbytes, hvalue⟩
      | word | bytes => exact hvalue.elim

/-- No other spelled instruction has an operand that linking would replace. -/
theorem Spelled.kind_ne (h : instruction.Spelled order registers)
    (hasset : instruction.opcode ≠ .copyMediaRef) :
    ∀ operand, instruction.operand = some operand → operand.kind ≠ .asset := by
  obtain ⟨offset, opcode, operand, bytes⟩ := instruction
  rintro operand rfl hkind
  obtain ⟨kind, value, length⟩ := operand
  obtain rfl : kind = .asset := hkind
  cases opcode <;> first | exact hasset rfl | exact h.elim | cases h.1

/-- A spelled instruction that refers to a medium has a number. -/
theorem Spelled.assetNumber?_eq (h : instruction.Spelled order registers)
    (hasset : instruction.opcode = .copyMediaRef) :
    ∃ number, instruction.assetNumber? = some number ∧ instruction.index? = some number := by
  obtain ⟨number, digits, hoperand, -, -⟩ := h.asset_eq hasset
  have hindex : instruction.index? = some number := by
    rw [index?, hoperand]
    rfl
  exact ⟨number, by rw [assetNumber?, if_pos hasset, hindex], hindex⟩

/-- Any other instruction has none. -/
theorem assetNumber?_of_ne (hasset : instruction.opcode ≠ .copyMediaRef) :
    instruction.assetNumber? = none :=
  if_neg hasset

end Instruction

section Layout

variable {order : ByteOrder} {registers : Registers} {start position : Nat}
  {instructions linked : List Instruction} {numbers : List UInt32}

/-- Every reference to a medium in spelled instructions has a number. -/
theorem assetOperands_eq_map (h : Spelled order registers start instructions) :
    assetOperands instructions = (assetNumbers instructions).map some := by
  induction instructions generalizing registers start with
  | nil => rfl
  | cons instruction rest ih =>
      obtain ⟨-, hinstruction, hrest⟩ := h
      rw [assetOperands_cons, ih hrest, assetNumbers, assetNumbers, List.filterMap_cons]
      by_cases hasset : instruction.opcode = .copyMediaRef
      · obtain ⟨number, hnumber, hindex⟩ := hinstruction.assetNumber?_eq hasset
        rw [if_pos hasset, hnumber, hindex]
        rfl
      · rw [if_neg hasset, Instruction.assetNumber?_of_ne hasset]
        rfl

/-- With as many numbers as there are references, the layout that is computed is the one described. -/
theorem renumbers_renumber (hspelled : Spelled order registers start instructions)
    (hlength : numbers.length = (assetNumbers instructions).length) :
    Renumbers position instructions numbers (renumber position instructions numbers) := by
  induction instructions generalizing registers start position numbers with
  | nil =>
      obtain rfl := List.length_eq_zero_iff.mp hlength
      exact .nil position
  | cons instruction rest ih =>
      obtain ⟨-, hinstruction, hrest⟩ := hspelled
      rw [assetNumbers, List.filterMap_cons] at hlength
      by_cases hasset : instruction.opcode = .copyMediaRef
      · obtain ⟨number, hnumber, -⟩ := hinstruction.assetNumber?_eq hasset
        rw [hnumber] at hlength
        cases numbers with
        | nil => cases hlength
        | cons resolved numbers =>
            rw [renumber_of_asset hasset]
            exact .asset hasset (ih hrest (Nat.succ.inj hlength))
      · rw [Instruction.assetNumber?_of_ne hasset] at hlength
        rw [renumber_of_ne hasset]
        exact .other hasset (ih hrest hlength)

namespace Renumbers

/-- Neither an old nor a new number of a medium is kept in a register. -/
theorem registers_after {instruction : Instruction} (hasset : instruction.opcode = .copyMediaRef)
    (number : UInt32) :
    registers.after (.ofIndex position .copyMediaRef .asset number) = registers.after instruction := by
  rw [Registers.after, Registers.after, hasset]
  rfl

/-- Spelled instructions are spelled where they are laid out. -/
theorem spelled (h : Renumbers position instructions numbers linked)
    (hspelled : Spelled order registers start instructions) :
    Spelled order registers position linked := by
  induction h generalizing registers start with
  | nil => trivial
  | asset hasset hrest ih =>
      refine ⟨rfl, Instruction.spelled_ofIndex rfl rfl, ?_⟩
      rw [registers_after hasset]
      exact ih hspelled.2.2
  | other hasset hrest ih => exact ⟨rfl, hspelled.2.1, ih hspelled.2.2⟩

/-- Every opcode stays, and so do the bytes of an instruction that does not refer to a medium. -/
theorem forall₂ (h : Renumbers position instructions numbers linked) :
    List.Forall₂ (fun before after => after.opcode = before.opcode ∧
      (before.opcode ≠ .copyMediaRef → after.bytes = before.bytes)) instructions linked := by
  induction h with
  | nil => exact .nil
  | asset hasset hrest ih => exact .cons ⟨hasset.symm, fun hne => absurd hasset hne⟩ ih
  | other hasset hrest ih => exact .cons ⟨rfl, fun _ => rfl⟩ ih

/-- Opcodes stay in their order. -/
theorem opcodes_eq (h : Renumbers position instructions numbers linked) :
    linked.map (·.opcode) = instructions.map (·.opcode) := by
  induction h with
  | nil => rfl
  | asset hasset hrest ih => rw [List.map_cons, List.map_cons, ih, hasset]; rfl
  | other hasset hrest ih => rw [List.map_cons, List.map_cons, ih]

/-- The instructions that refer to media spell the numbers in order, in as few bytes as can be. -/
theorem forall₂_numbers (h : Renumbers position instructions numbers linked) :
    List.Forall₂ (fun number after => ∃ digits,
      after.bytes = Opcode.copyMediaRef.toByte :: digits ∧ IndexCode.IsShortest number digits)
      numbers (linked.filter (·.opcode = .copyMediaRef)) := by
  induction h with
  | nil => exact .nil
  | asset hasset hrest ih => exact .cons ⟨_, rfl, IndexCode.isShortest_encode _⟩ ih
  | other hasset hrest ih =>
      rw [List.filter_cons_of_neg (by simpa using hasset)]
      exact ih

end Renumbers

/-- Numbers that are the shortest to begin with and are kept leave every instruction as it is. -/
theorem renumber_assetNumbers (hspelled : Spelled order registers position instructions)
    (hshortest : ∀ instruction ∈ instructions, instruction.opcode = .copyMediaRef →
      instruction.HasShortestIndex) :
    renumber position instructions (assetNumbers instructions) = instructions := by
  induction instructions generalizing registers position with
  | nil => rfl
  | cons instruction rest ih =>
      obtain ⟨hoffset, hinstruction, hrest⟩ := hspelled
      have hfirst := hshortest instruction (List.mem_cons_self ..)
      have hothers := ih hrest fun other hother =>
        hshortest other (List.mem_cons_of_mem _ hother)
      rw [assetNumbers, List.filterMap_cons]
      by_cases hasset : instruction.opcode = .copyMediaRef
      · obtain ⟨number, hnumber, hindex⟩ := hinstruction.assetNumber?_eq hasset
        obtain ⟨spelled, digits, hoperand, hbytes, hspells⟩ := hinstruction.asset_eq hasset
        obtain rfl : spelled = number := by
          rw [Instruction.index?, hoperand] at hindex
          exact Option.some.inj hindex
        -- The shortest spelling is the one `encode` gives, so the instruction stays as it is.
        have hdigits : digits = IndexCode.encode spelled := by
          refine IndexCode.IsShortest.eq_encode ⟨hspells, fun others hothers => ?_⟩
          have hle := hfirst hasset spelled others hindex hothers
          rw [hbytes, List.length_cons] at hle
          exact Nat.le_of_succ_le_succ hle
        have hsame : Instruction.ofIndex position .copyMediaRef .asset spelled = instruction := by
          obtain ⟨offset, opcode, operand, bytes⟩ := instruction
          obtain rfl : offset = position := hoffset
          obtain rfl : opcode = .copyMediaRef := hasset
          obtain rfl : operand = _ := hoperand
          obtain rfl : bytes = _ := hbytes
          rw [hdigits]
          rfl
        rw [hnumber]
        simp only [renumber_of_asset hasset, hsame]
        exact congrArg (instruction :: ·) hothers
      · rw [Instruction.assetNumber?_of_ne hasset]
        simp only [renumber_of_ne hasset, ← hoffset]
        exact congrArg (instruction :: ·) (hoffset ▸ hothers)

end Layout

section Resolution

variable {m : Type → Type} [Monad m] {resolve : UInt32 → m UInt32}

/-- Any other instruction is written as it was. -/
theorem relink_of_kind_ne {instruction : Instruction}
    (h : ∀ operand, instruction.operand = some operand → operand.kind ≠ .asset) :
    instruction.relink resolve = pure instruction.bytes := by
  unfold Instruction.relink
  split
  · rename_i hoperand
    exact absurd rfl (h _ hoperand)
  · rfl

variable [LawfulMonad m]

/-- An instruction that refers to a medium is written with the number that replaces its own. -/
theorem relink_of_asset {instruction : Instruction} {number : UInt32} {length : Nat}
    (h : instruction.operand = some ⟨.asset, .index number, length⟩) :
    instruction.relink resolve =
      (fun resolved => instruction.opcode.toByte :: IndexCode.encode resolved) <$>
        resolve number := by
  simp only [Instruction.relink, h, map_eq_pure_bind]

/-- Linking instructions is resolving their numbers in order and laying the instructions out. -/
theorem relinkInstructions_eq {order : ByteOrder} {registers : Registers}
    {instructions : List Instruction} {start : Nat}
    (hspelled : Spelled order registers start instructions) (position : Nat) :
    relinkInstructions resolve instructions =
      (fun numbers => streamBytes (renumber position instructions numbers)) <$>
        (assetNumbers instructions).mapM resolve := by
  -- Where the rest is laid out depends on the resolved number, but its bytes do not.
  induction instructions generalizing registers start position with
  | nil => simp [relinkInstructions, assetNumbers, renumber]
  | cons instruction rest ih =>
      obtain ⟨-, hinstruction, hrest⟩ := hspelled
      rw [relinkInstructions, assetNumbers, List.filterMap_cons]
      by_cases hasset : instruction.opcode = .copyMediaRef
      · obtain ⟨number, digits, hoperand, -, -⟩ := hinstruction.asset_eq hasset
        obtain ⟨same, hnumber, hindex⟩ := hinstruction.assetNumber?_eq hasset
        obtain rfl : number = same := by
          rw [Instruction.index?, hoperand] at hindex
          exact Option.some.inj hindex
        rw [relink_of_asset hoperand, hnumber, List.mapM_cons, bind_map_left, map_bind]
        refine bind_congr fun resolved => ?_
        rw [ih hrest (position +
          (Instruction.ofIndex position .copyMediaRef .asset resolved).bytes.length),
          bind_map_left, map_bind, ← assetNumbers]
        refine bind_congr fun numbers => ?_
        rw [map_pure, renumber_of_asset hasset, streamBytes_cons, hasset]
        rfl
      · rw [relink_of_kind_ne (hinstruction.kind_ne hasset), pure_bind,
          Instruction.assetNumber?_of_ne hasset, ih hrest (position + instruction.bytes.length),
          bind_map_left, map_eq_pure_bind, ← assetNumbers]
        refine bind_congr fun numbers => ?_
        rw [renumber_of_ne hasset, streamBytes_cons]

/-- Linking a stream that decodes is resolving its numbers in order and laying its instructions out
from the start. -/
theorem relinkStream_eq [MonadExcept RelinkFault m] {order : ByteOrder} {stream : Bytes}
    {original : List Instruction} (h : decodeStream order stream = .ok original) :
    relinkStream order resolve stream =
      (fun numbers => streamBytes (renumber 0 original numbers)) <$>
        (assetNumbers original).mapM resolve := by
  obtain ⟨hspelled, -, -⟩ := decodeStream_eq_ok_iff.mp h
  rw [relinkStream, h]
  exact relinkInstructions_eq hspelled 0

end Resolution

/-- Linking changes nothing but the numbers of media. Whatever stream decodes, in shortest form or
not, and whatever resolves its numbers from some state on: linking ends in the state in which resolving
each number once and in order ends. The linked stream decodes and ends with its last instruction; its
opcodes are the same, and so are all bytes but those of references, which spell the resolved numbers
in as few bytes as can be. A stream whose numbers are in shortest form and stay is not changed, except
that nothing pads it. -/
theorem relinkStream_replaces_numbers {σ : Type} {order : ByteOrder} {stream : Bytes}
    {original : List Instruction} {before after : σ} {numbers : List UInt32}
    (resolve : UInt32 → StateT σ (Except RelinkFault) UInt32)
    (h : decodeStream order stream = .ok original)
    (hresolve : ((assetNumbers original).mapM resolve).run before = .ok (numbers, after)) :
    assetOperands original = (assetNumbers original).map some ∧
    (∃ linked,
      (relinkStream order resolve stream).run before = .ok (streamBytes linked, after) ∧
      decodeStream order (streamBytes linked) = .ok linked ∧ IsFinished linked ∧
      List.Forall₂ (fun first second => second.opcode = first.opcode ∧
        (first.opcode ≠ .copyMediaRef → second.bytes = first.bytes)) original linked ∧
      List.Forall₂ (fun number second => ∃ digits,
        second.bytes = Opcode.copyMediaRef.toByte :: digits ∧ IndexCode.IsShortest number digits)
        numbers (linked.filter (·.opcode = .copyMediaRef))) ∧
    ((∀ instruction ∈ original, instruction.opcode = .copyMediaRef →
        instruction.HasShortestIndex) →
      (relinkStream order (pure : UInt32 → StateT σ (Except RelinkFault) UInt32) stream).run before =
          .ok (streamBytes original, before) ∧
        ∃ pad, IsPadding pad ∧ stream = streamBytes original ++ pad) := by
  obtain ⟨hspelled, hfinished, hpad⟩ := decodeStream_eq_ok_iff.mp h
  refine ⟨assetOperands_eq_map hspelled, ?_, fun hshortest => ⟨?_, hpad⟩⟩
  · have hrenumbers : Renumbers 0 original numbers (renumber 0 original numbers) :=
      renumbers_renumber hspelled (length_of_mapM_run hresolve)
    have hlinked := hrenumbers.spelled hspelled
    have hended := hfinished.of_opcodes hrenumbers.opcodes_eq
    refine ⟨renumber 0 original numbers, ?_, ?_, hended, hrenumbers.forall₂,
      hrenumbers.forall₂_numbers⟩
    · rw [relinkStream_eq h, StateT.run_map, hresolve]
      rfl
    · exact decodeStream_eq_ok_iff.mpr ⟨hlinked, hended, [], .inl rfl, (List.append_nil _).symm⟩
  · rw [relinkStream_eq h, List.mapM_pure, List.map_id', map_pure,
      renumber_assetNumbers hspelled hshortest]
    rfl

/-- References that are not in shortest form or take no digits, around a value that looks like one. -/
theorem relinkStream_replaces_overlong_numbers :
    decodeStream .big [0x8b, 0, 2, 0x8c, 0x8d, 5, 0x8d, 0, 1, 0x8d, 0x80, 0] = .ok
      [⟨0, .setLength, some ⟨.count, .index 2, 2⟩, [0x8b, 0, 2]⟩,
        ⟨3, .copy, some ⟨.bytes, .bytes [0x8d, 5], 2⟩, [0x8c, 0x8d, 5]⟩,
        ⟨6, .copyMediaRef, some ⟨.asset, .index 1, 2⟩, [0x8d, 0, 1]⟩,
        ⟨9, .copyMediaRef, some ⟨.asset, .index 0, 0⟩, [0x8d]⟩, ⟨10, .finish, none, [0x80]⟩] ∧
    ∃ linked,
      (relinkStream .big (fun number => do modify (· ++ [number]); pure (number + 200) :
        UInt32 → StateT (List UInt32) (Except RelinkFault) UInt32)
        [0x8b, 0, 2, 0x8c, 0x8d, 5, 0x8d, 0, 1, 0x8d, 0x80, 0]).run [] =
          .ok (streamBytes linked, [1, 0]) ∧
      decodeStream .big (streamBytes linked) = .ok linked := by
  have hdecode : decodeStream .big [0x8b, 0, 2, 0x8c, 0x8d, 5, 0x8d, 0, 1, 0x8d, 0x80, 0] = .ok
      [⟨0, .setLength, some ⟨.count, .index 2, 2⟩, [0x8b, 0, 2]⟩,
        ⟨3, .copy, some ⟨.bytes, .bytes [0x8d, 5], 2⟩, [0x8c, 0x8d, 5]⟩,
        ⟨6, .copyMediaRef, some ⟨.asset, .index 1, 2⟩, [0x8d, 0, 1]⟩,
        ⟨9, .copyMediaRef, some ⟨.asset, .index 0, 0⟩, [0x8d]⟩, ⟨10, .finish, none, [0x80]⟩] := by
    refine decodeStream_eq_ok_iff.mpr ⟨?_, ?_, [0], .inr rfl, rfl⟩
    · have hlength : IndexCode.Spells 2 [0, 2] := by decide
      have hoverlong : IndexCode.Spells 1 [0, 1] := by decide
      have hempty : IndexCode.Spells 0 [] := by decide
      exact ⟨rfl, ⟨rfl, _, rfl, rfl, hlength⟩, rfl, ⟨rfl, _, rfl, rfl, rfl, 2, rfl, rfl⟩, rfl,
        ⟨rfl, _, rfl, rfl, hoverlong⟩, rfl, ⟨rfl, _, rfl, rfl, hempty⟩, rfl, rfl, trivial⟩
    · simp [isFinished_cons]
  obtain ⟨-, ⟨linked, hrelink, hlinked, -, -, -⟩, -⟩ := relinkStream_replaces_numbers
    (fun number => do modify (· ++ [number]); pure (number + 200)) hdecode rfl
  exact ⟨hdecode, linked, hrelink, hlinked⟩

end StageArchive
