import Mathlib.Data.List.Induction
import Mathlib.Data.List.TakeWhile
import Mathlib.Data.Nat.Bitwise
import Mathlib.Data.Nat.Digits.Defs
import StageArchive.Proofs.IndexCode
/-!
# How far an index reaches

An index takes all digits in front of it, however many, and gives the number that they spell in base 128;
`decode_of_le` says where it stops for a number that does not fit in a word. A decoder may keep its running
value in a word of 64 bits: `accumulateFrom` does, and shows every value it comes by, none of which is as
great as `2 ^ 39`. `length_encode_eq` counts the digits of an encoding by the bits of its index. The main
statement is `encode_shortest_decode_exact`.
-/

namespace StageArchive.IndexCode

/-- The number that bytes spell in base 128, the most significant digit first. -/
def number (bytes : Bytes) : Nat :=
  Nat.ofDigits 128 (bytes.reverse.map (·.toNat))

/-- The digits in front of everything that is none. -/
def digitRun (bytes : Bytes) : Bytes :=
  bytes.takeWhile (· < 0x80)

/-- Reads an index by shifts and bits in words of 64 bits, which lose what does not fit. Besides the outcome
it gives every running value, in order. -/
def accumulateFrom (value : UInt64) (consumed : Nat) :
    Bytes → List UInt64 × Except Nat (UInt32 × Nat)
  | [] => ([], .ok (value.toUInt32, consumed))
  | byte :: rest =>
    if byte &&& 0x80 ≠ 0 then ([], .ok (value.toUInt32, consumed))
    else
      let grown := value <<< 7 ||| byte.toUInt64
      if 0xffffffff < grown then ([grown], .error consumed)
      else
        let (values, outcome) := accumulateFrom grown (consumed + 1) rest
        (grown :: values, outcome)

/-- A byte is a digit when it is below 0x80. -/
theorem isOpcodeByte_eq_false_iff {byte : UInt8} : isOpcodeByte byte = false ↔ byte < 0x80 := by
  rw [isOpcodeByte, decide_eq_false_iff_not, UInt8.not_le]

/-- One more digit behind others. -/
theorem number_append_singleton (bytes : Bytes) (byte : UInt8) :
    number (bytes ++ [byte]) = number bytes * 128 + byte.toNat := by
  simp only [number, List.reverse_append, List.reverse_singleton, List.singleton_append,
    List.map_cons, Nat.ofDigits_cons]
  omega

/-- Adding up from the most significant digit down gives the number. -/
theorem valueFrom_eq_number (bytes : Bytes) : valueFrom 0 bytes = number bytes := by
  induction bytes using List.reverseRecOn with
  | nil => rfl
  | append_singleton bytes byte ih =>
      rw [number_append_singleton, ← ih]
      exact List.foldl_append

/-- Fewer digits never make a number greater. -/
theorem number_take_le (bytes : Bytes) {count other : Nat} (h : count ≤ other) :
    number (bytes.take count) ≤ number (bytes.take other) := by
  obtain ⟨extra, rfl⟩ := Nat.exists_eq_add_of_le h
  rw [List.take_add, ← valueFrom_eq_number, ← valueFrom_eq_number]
  show _ ≤ List.foldl _ 0 (_ ++ _)
  rw [List.foldl_append]
  exact le_valueFrom _ _

section Extent

variable {digits rest bytes : Bytes}

/-- The digits in front of what ends an index. -/
theorem digitRun_append (hdigits : AreDigits digits) (hrest : EndIndex rest) :
    digitRun (digits ++ rest) = digits := by
  have hnone : digitRun rest = [] := by
    cases rest with
    | nil => rfl
    | cons byte rest =>
        have hbyte : ¬ byte < 0x80 := by
          rw [← isOpcodeByte_eq_false_iff, hrest byte rfl]
          exact Bool.noConfusion
        simp [digitRun, hbyte]
  rw [digitRun, List.takeWhile_append_of_pos, ← digitRun, hnone, List.append_nil]
  intro byte hbyte
  exact decide_eq_true (isOpcodeByte_eq_false_iff.mp (hdigits byte hbyte))

/-- All bytes are their front digits and what ends an index. -/
theorem exists_digitRun_append (bytes : Bytes) :
    AreDigits (digitRun bytes) ∧ ∃ rest, EndIndex rest ∧ bytes = digitRun bytes ++ rest := by
  refine ⟨fun byte hbyte => ?_, bytes.dropWhile (· < 0x80), fun byte hbyte => ?_,
    List.takeWhile_append_dropWhile.symm⟩
  · have hfront := List.mem_takeWhile_imp (p := (· < (0x80 : UInt8))) hbyte
    exact isOpcodeByte_eq_false_iff.mpr (of_decide_eq_true hfront)
  · have hhead := List.head?_dropWhile_not (· < (0x80 : UInt8)) bytes
    rw [Option.mem_def.mp hbyte] at hhead
    refine eq_true_of_ne_false fun hfalse => ?_
    rw [isOpcodeByte_eq_false_iff] at hfalse
    simp [hfalse] at hhead

/-- Digits whose number fits in a word are read to the last. -/
theorem decode_of_lt (h : number (digitRun bytes) < 2 ^ 32) :
    decode bytes =
      .ok (UInt32.ofNat (number (digitRun bytes)), (digitRun bytes).length) := by
  obtain ⟨hdigits, rest, hrest, hbytes⟩ := exists_digitRun_append bytes
  rw [← valueFrom_eq_number] at h ⊢
  have hread := decodeFrom_append 0 hdigits hrest h
  rwa [← hbytes, Nat.zero_add] at hread

/-- Reading stops at the digit with which the number grows too great for a word. -/
theorem decodeFrom_eq_error {start consumed offset : Nat}
    (h : decodeFrom start consumed bytes = .error offset) :
    ∃ digits digit rest, bytes = digits ++ digit :: rest ∧ AreDigits (digits ++ [digit]) ∧
      (start < 2 ^ 32 → valueFrom start digits < 2 ^ 32) ∧
      2 ^ 32 ≤ valueFrom start (digits ++ [digit]) ∧ offset = consumed + digits.length := by
  induction bytes generalizing start consumed with
  | nil => cases h
  | cons byte bytes ih =>
      unfold decodeFrom at h
      split at h
      · cases h
      · rename_i hbyte
        have hdigit : isOpcodeByte byte = false := eq_false_of_ne_true hbyte
        split at h
        · rename_i hfits
          obtain ⟨digits, digit, rest, rfl, hdigits, hless, hgreat, rfl⟩ := ih h
          refine ⟨byte :: digits, digit, rest, rfl, ?_, fun _ => hless hfits, hgreat, ?_⟩
          · intro other hother
            cases hother with
            | head => exact hdigit
            | tail _ hother => exact hdigits other hother
          · rw [List.length_cons]
            omega
        · rename_i hgreat
          cases h
          refine ⟨[], byte, bytes, rfl, ?_, id, Nat.le_of_not_lt hgreat, rfl⟩
          intro other hother
          rwa [List.mem_singleton.mp hother]

/-- Digits whose number does not fit in a word are read up to the first with which it does not. -/
theorem decode_of_le (h : 2 ^ 32 ≤ number (digitRun bytes)) :
    ∃ offset, offset < (digitRun bytes).length ∧ decode bytes = .error offset ∧
      (∀ count ≤ offset, number (bytes.take count) < 2 ^ 32) ∧
      2 ^ 32 ≤ number (bytes.take (offset + 1)) := by
  cases hread : decode bytes with
  | ok found =>
      obtain ⟨value, length⟩ := found
      obtain ⟨digits, rest, rfl, hspells, hrest, -⟩ := decode_eq_ok_iff.mp hread
      rw [digitRun_append hspells.digits hrest, ← valueFrom_eq_number, hspells.value_eq] at h
      exact absurd value.toNat_lt (Nat.not_lt.mpr h)
  | error offset =>
      obtain ⟨digits, digit, rest, rfl, hdigits, hless, hgreat, hoffset⟩ := decodeFrom_eq_error hread
      obtain rfl : offset = digits.length := hoffset.trans (Nat.zero_add _)
      refine ⟨digits.length, ?_, rfl, fun count hcount => ?_, ?_⟩
      · -- The digits that are read are in the run, which cannot end before one of them.
        rw [digitRun, List.append_cons, List.takeWhile_append_of_pos]
        · simp
        · intro byte hbyte
          exact decide_eq_true (isOpcodeByte_eq_false_iff.mp (hdigits byte hbyte))
      · refine Nat.lt_of_le_of_lt (number_take_le _ hcount) ?_
        rw [List.take_left, ← valueFrom_eq_number]
        exact hless (by decide)
      · have htake : (digits ++ digit :: rest).take (digits.length + 1) = digits ++ [digit] := by
          rw [List.append_cons, List.take_append_of_le_length (by simp)]
          exact List.take_of_length_le (by simp)
        rwa [htake, ← valueFrom_eq_number]

end Extent

section Words

/-- A bit that is in no digit tells the other bytes. -/
theorem and_ne_zero_iff (byte : UInt8) : byte &&& 0x80 ≠ 0 ↔ isOpcodeByte byte = true := by
  have hbyte := byte.toNat_lt
  have hbit : (byte &&& 0x80).toNat = (byte.toNat.testBit 7).toNat * 2 ^ 7 := by
    rw [UInt8.toNat_and]
    exact Nat.and_two_pow byte.toNat 7
  rw [Ne, ← UInt8.toNat_inj, hbit, isOpcodeByte, decide_eq_true_iff, UInt8.le_iff_toNat_le,
    Nat.testBit_eq_decide_div_mod_eq]
  show _ ↔ 128 ≤ byte.toNat
  by_cases h : byte.toNat / 2 ^ 7 % 2 = 1
  · simp only [h, decide_true]
    refine ⟨fun _ => by omega, fun _ => by decide⟩
  · simp only [h, decide_false]
    refine ⟨fun hne => absurd rfl hne, fun hle => by omega⟩

/-- A digit behind a word of 32 bits fits in one of 64. -/
theorem toNat_shiftLeft_or {value : UInt64} {byte : UInt8} (hvalue : value.toNat < 2 ^ 32)
    (hbyte : isOpcodeByte byte = false) :
    (value <<< 7 ||| byte.toUInt64).toNat = value.toNat * 128 + byte.toNat := by
  have hdigit := toNat_lt_of_isOpcodeByte hbyte
  have hshift : (value <<< 7).toNat = value.toNat <<< 7 := by
    rw [UInt64.toNat_shiftLeft]
    show value.toNat <<< 7 % 2 ^ 64 = _
    rw [Nat.shiftLeft_eq]
    exact Nat.mod_eq_of_lt (by omega)
  rw [UInt64.toNat_or, hshift, UInt8.toNat_toUInt64,
    ← Nat.shiftLeft_add_eq_or_of_lt (show byte.toNat < 2 ^ 7 from hdigit), Nat.shiftLeft_eq]

/-- A word of 64 bits is greater than all of 32 bits when its number does not fit in one. -/
theorem max_lt_iff (word : UInt64) : (0xffffffff : UInt64) < word ↔ 2 ^ 32 ≤ word.toNat :=
  UInt64.lt_iff_toNat_lt

/-- Words of 64 bits hold every running value. -/
theorem accumulateFrom_eq {value : UInt64} (hvalue : value.toNat < 2 ^ 32) (consumed : Nat)
    (bytes : Bytes) :
    (accumulateFrom value consumed bytes).2 = decodeFrom value.toNat consumed bytes ∧
      ∀ place running, (accumulateFrom value consumed bytes).1[place]? = some running →
        running.toNat = valueFrom value.toNat (bytes.take (place + 1)) ∧
          running.toNat < 2 ^ 39 := by
  -- Only a value that fits in 32 bits is carried on, so that the next digit makes it one of 39 at most.
  induction bytes generalizing value consumed with
  | nil =>
      refine ⟨rfl, fun place running hrunning => ?_⟩
      cases hrunning
  | cons byte bytes ih =>
      unfold accumulateFrom decodeFrom
      by_cases hbyte : isOpcodeByte byte = true
      · rw [if_pos ((and_ne_zero_iff byte).mpr hbyte), if_pos hbyte]
        refine ⟨rfl, fun place running hrunning => ?_⟩
        cases hrunning
      · have hgrown := toNat_shiftLeft_or hvalue (eq_false_of_ne_true hbyte)
        have hdigit := toNat_lt_of_isOpcodeByte (eq_false_of_ne_true hbyte)
        have hless : (value <<< 7 ||| byte.toUInt64).toNat < 2 ^ 39 := by omega
        have hmax := max_lt_iff (value <<< 7 ||| byte.toUInt64)
        rw [hgrown] at hmax
        rw [if_neg (mt (and_ne_zero_iff byte).mp hbyte), if_neg hbyte]
        dsimp only
        by_cases hfits : value.toNat * 128 + byte.toNat < 2 ^ 32
        · rw [if_neg (mt hmax.mp (Nat.not_le_of_lt hfits)), if_pos hfits]
          obtain ⟨houtcome, hvalues⟩ := ih (hgrown ▸ hfits) (consumed + 1)
          rw [hgrown] at houtcome hvalues
          refine ⟨houtcome, fun place running hrunning => ?_⟩
          cases place with
          | zero =>
              cases hrunning
              exact ⟨hgrown, hless⟩
          | succ place => exact hvalues place running hrunning
        · rw [if_pos (hmax.mpr (Nat.le_of_not_lt hfits)), if_neg hfits]
          refine ⟨rfl, fun place running hrunning => ?_⟩
          cases place with
          | zero =>
              cases hrunning
              exact ⟨hgrown, hless⟩
          | succ place => cases hrunning

end Words

section Length

/-- So many digits count from what stands before them to less than one more. -/
theorem valueFrom_bounds {digits : Bytes} (start : Nat) (h : AreDigits digits) :
    start * 128 ^ digits.length ≤ valueFrom start digits ∧
      valueFrom start digits < (start + 1) * 128 ^ digits.length := by
  induction digits generalizing start with
  | nil => simp [valueFrom]
  | cons digit digits ih =>
      have hdigit := toNat_lt_of_isOpcodeByte (h digit (List.mem_cons_self ..))
      obtain ⟨hlower, hupper⟩ := ih (start * 128 + digit.toNat) fun byte hbyte =>
        h byte (List.mem_cons_of_mem _ hbyte)
      have hpower : (0 : Nat) < 128 ^ digits.length := Nat.pow_pos (by decide)
      rw [List.length_cons, Nat.pow_succ', ← Nat.mul_assoc, ← Nat.mul_assoc]
      refine ⟨Nat.le_trans (Nat.mul_le_mul_right _ (Nat.le_add_right ..)) hlower,
        Nat.lt_of_lt_of_le hupper (Nat.mul_le_mul_right _ ?_)⟩
      omega

/-- Only zero takes no digits. -/
theorem encode_eq_nil_iff {value : UInt32} : encode value = [] ↔ value = 0 := by
  constructor
  · intro h
    have hvalue := (spells_encode value).value_eq
    rw [h] at hvalue
    exact UInt32.toNat_inj.mp hvalue.symm
  · rintro rfl
    rfl

/-- The digits behind the first count for seven bits each, and the first for at least one. -/
theorem log2_of_encode_cons {value : UInt32} {first : UInt8} {digits : Bytes}
    (h : encode value = first :: digits) :
    7 * digits.length ≤ value.toNat.log2 ∧ value.toNat.log2 < 7 * (digits.length + 1) := by
  have hspells : Spells value (first :: digits) := h ▸ spells_encode value
  have hfirst : first.toNat ≠ 0 := fun hzero => by
    obtain rfl : first = 0 := UInt8.toNat_inj.mp hzero
    exact head?_encode value (by rw [h, List.head?_cons])
  have hpositive : value.toNat ≠ 0 := fun hzero => by
    rw [encode_eq_nil_iff.mpr (UInt32.toNat_inj.mp hzero)] at h
    cases h
  have hbase (count : Nat) : 128 ^ count = 2 ^ (7 * count) := by
    rw [Nat.pow_mul]
  obtain ⟨-, hupper⟩ := valueFrom_bounds 0 hspells.digits
  obtain ⟨hlower, -⟩ := valueFrom_bounds first.toNat fun byte hbyte =>
    hspells.digits byte (List.mem_cons_of_mem _ hbyte)
  have hvalue : valueFrom first.toNat digits = value.toNat := by
    rw [← hspells.value_eq]
    show _ = valueFrom (0 * 128 + first.toNat) digits
    rw [Nat.zero_mul, Nat.zero_add]
  rw [hspells.value_eq, Nat.zero_add, Nat.one_mul, hbase, List.length_cons] at hupper
  rw [hvalue, hbase] at hlower
  have hleast : 2 ^ (7 * digits.length) ≤ value.toNat :=
    Nat.le_trans (Nat.le_mul_of_pos_left _ (Nat.pos_of_ne_zero hfirst)) hlower
  exact ⟨(Nat.le_log2 hpositive).mpr hleast, (Nat.log2_lt hpositive).mpr hupper⟩

/-- An encoding takes a digit for every seven bits of its index. -/
theorem length_encode_eq (value : UInt32) : (encode value).length = length value := by
  unfold length
  split
  · rename_i hzero
    rw [encode_eq_nil_iff.mpr hzero]
    rfl
  · rename_i hne
    cases hdigits : encode value with
    | nil => exact absurd (encode_eq_nil_iff.mp hdigits) hne
    | cons first digits =>
        have hbounds := log2_of_encode_cons hdigits
        rw [List.length_cons]
        omega

end Length

/-- What the encoding of an index is and what any bytes decode to. In front of nothing or of a byte that is no
digit an encoding is read back with its length; all its bytes are digits, and no other bytes as few decode to
its index. Bytes decode to the number of all digits in front of them, if that fits in a word of 32 bits; else
the offset is told of the first digit with which the number does not. A running value in 64 bits is always the
number of the digits so far, which is less than `2 ^ 39`. -/
theorem encode_shortest_decode_exact (value : UInt32) (bytes : Bytes) :
    (∀ rest : Bytes, (rest = [] ∨ ∃ byte tail, rest = byte :: tail ∧ 0x80 ≤ byte) →
      decode (encode value ++ rest) = .ok (value, length value)) ∧
    (∀ byte ∈ encode value, byte < 0x80) ∧
    (∀ others used, decode others = .ok (value, used) →
      length value ≤ used ∧ used ≤ others.length ∧
        (others.length = length value → others = encode value)) ∧
    (encode value = [] ↔ value = 0) ∧
    (number (digitRun bytes) < 2 ^ 32 →
      decode bytes = .ok (UInt32.ofNat (number (digitRun bytes)), (digitRun bytes).length)) ∧
    (2 ^ 32 ≤ number (digitRun bytes) →
      ∃ offset, offset < (digitRun bytes).length ∧ decode bytes = .error offset ∧
        (∀ count ≤ offset, number (bytes.take count) < 2 ^ 32) ∧
        2 ^ 32 ≤ number (bytes.take (offset + 1))) ∧
    (accumulateFrom 0 0 bytes).2 = decode bytes ∧
    ∀ place running, (accumulateFrom 0 0 bytes).1[place]? = some running →
      running.toNat = number (bytes.take (place + 1)) ∧ running.toNat < 2 ^ 39 := by
  obtain ⟨houtcome, hvalues⟩ := accumulateFrom_eq (show (0 : UInt64).toNat < 2 ^ 32 by decide) 0 bytes
  refine ⟨fun rest hrest => ?_, fun byte hbyte => ?_, fun others used hread => ?_,
    encode_eq_nil_iff, decode_of_lt, decode_of_le, houtcome, fun place running hrunning => ?_⟩
  · rw [← length_encode_eq]
    refine decode_encode value ?_
    rcases hrest with rfl | ⟨byte, tail, rfl, hbyte⟩
    · exact endIndex_nil
    · exact endIndex_cons (decide_eq_true hbyte)
  · exact isOpcodeByte_eq_false_iff.mp ((spells_encode value).digits byte hbyte)
  · obtain ⟨digits, rest, rfl, hspells, -, rfl⟩ := decode_eq_ok_iff.mp hread
    rw [← length_encode_eq, List.length_append]
    have hle := (isShortest_encode value).length_le digits hspells
    refine ⟨hle, Nat.le_add_right .., fun hlength => ?_⟩
    obtain rfl : rest = [] := List.eq_nil_of_length_eq_zero (by omega)
    rw [List.append_nil]
    exact eq_encode_of_length_le hspells (by omega)
  · rw [← valueFrom_eq_number]
    exact hvalues place running hrunning

/-- The least number that does not fit in a word, behind two zeros and in front of an opcode. -/
def greatNumber : Bytes :=
  [0, 0, 0x10, 0, 0, 0, 0, 0x8a]

/-- Three digits are read back in front of an opcode, and a great number is refused at its last digit. -/
theorem encode_shortest_decode_exact_greatNumber :
    decode (encode 0x4000 ++ [0x8a, 0x05]) = .ok (0x4000, 3) ∧
      encode 0x4000 = [0x01, 0x00, 0x00] ∧
      2 ^ 32 ≤ number (digitRun greatNumber) ∧
      ∃ offset, offset < 7 ∧ decode greatNumber = .error offset ∧
        2 ^ 32 ≤ number (greatNumber.take (offset + 1)) := by
  obtain ⟨hback, -, hshortest, -, -, hgreat, -⟩ := encode_shortest_decode_exact 0x4000 greatNumber
  have hread : decode [0x01, 0x00, 0x00] = .ok (0x4000, 3) := by decide
  obtain ⟨-, -, hsame⟩ := hshortest _ _ hread
  have hnumber : 2 ^ 32 ≤ number (digitRun greatNumber) := by decide
  obtain ⟨offset, hoffset, herror, -, hle⟩ := hgreat hnumber
  exact ⟨hback [0x8a, 0x05] (.inr ⟨0x8a, [0x05], rfl, by decide⟩), (hsame rfl).symm, hnumber,
    offset, hoffset, herror, hle⟩

end StageArchive.IndexCode
