import StageArchive.Instruction.IndexCode
/-!
# Index operands are read back

An index is a run of digits that ends where the bytes end or an opcode begins. `decode_eq_ok_iff`
says which bytes decode to an index and how far it reaches; `decode_encode` follows: an encoded index
is read back in front of anything that ends it. Leading zeros spell nothing, so an index may be
written in more than one way; `IsShortest.eq_encode` says that its encoding is the shortest.
-/

namespace StageArchive.IndexCode

/-- The number that base-128 digits add to a number in front of them. -/
def valueFrom (start : Nat) (digits : Bytes) : Nat :=
  digits.foldl (fun value digit => value * 128 + digit.toNat) start

/-- All bytes are index digits. -/
def AreDigits (bytes : Bytes) : Prop :=
  ∀ byte ∈ bytes, isOpcodeByte byte = false

/-- The bytes end an index that stands before them. -/
def EndIndex (bytes : Bytes) : Prop :=
  ∀ byte ∈ bytes.head?, isOpcodeByte byte = true

/-- The bytes are digits that spell an index. -/
structure Spells (value : UInt32) (bytes : Bytes) : Prop where
  digits : AreDigits bytes
  value_eq : valueFrom 0 bytes = value.toNat

instance (bytes : Bytes) : Decidable (AreDigits bytes) :=
  List.decidableBAll (isOpcodeByte · = false) bytes

instance (value : UInt32) (bytes : Bytes) : Decidable (Spells value bytes) :=
  decidable_of_iff (AreDigits bytes ∧ valueFrom 0 bytes = value.toNat)
    ⟨fun h => ⟨h.1, h.2⟩, fun h => ⟨h.digits, h.value_eq⟩⟩

/-- The bytes spell an index, and no fewer bytes do. -/
structure IsShortest (value : UInt32) (bytes : Bytes) : Prop where
  spells : Spells value bytes
  length_le : ∀ others, Spells value others → bytes.length ≤ others.length

/-- No bytes hold nothing but digits. -/
theorem areDigits_nil : AreDigits [] := by
  intro byte hbyte
  cases hbyte

/-- No bytes end an index. -/
theorem endIndex_nil : EndIndex [] := by
  intro byte hbyte
  cases hbyte

/-- An opcode byte and whatever follows it end an index. -/
theorem endIndex_cons {byte : UInt8} {rest : Bytes} (h : isOpcodeByte byte = true) :
    EndIndex (byte :: rest) := by
  intro first hfirst
  obtain rfl := Option.some.inj hfirst
  exact h

/-- More digits never make a number smaller. -/
theorem le_valueFrom (start : Nat) (digits : Bytes) : start ≤ valueFrom start digits := by
  induction digits generalizing start with
  | nil => exact Nat.le_refl start
  | cons digit digits ih =>
      have hrest := ih (start * 128 + digit.toNat)
      show start ≤ valueFrom (start * 128 + digit.toNat) digits
      omega

/-- Digits whose number fits in a word are read to their end, where something ends the index. -/
theorem decodeFrom_append {start : Nat} {digits rest : Bytes} (consumed : Nat)
    (hdigits : AreDigits digits) (hrest : EndIndex rest) (hvalue : valueFrom start digits < 2 ^ 32) :
    decodeFrom start consumed (digits ++ rest) =
      .ok (UInt32.ofNat (valueFrom start digits), consumed + digits.length) := by
  induction digits generalizing start consumed with
  | nil =>
      cases rest with
      | nil => rfl
      | cons byte rest =>
          have hbyte : isOpcodeByte byte = true := hrest byte rfl
          simp [decodeFrom, hbyte, valueFrom]
  | cons digit digits ih =>
      have hdigit : isOpcodeByte digit = false := hdigits digit (List.mem_cons_self ..)
      -- The number only grows, so it fits at every digit when it fits at the last.
      have hstep : start * 128 + digit.toNat < 2 ^ 32 :=
        Nat.lt_of_le_of_lt (le_valueFrom _ digits) hvalue
      have htail := ih (consumed + 1)
        (fun byte hbyte => hdigits byte (List.mem_cons_of_mem _ hbyte)) hvalue
      rw [List.cons_append, decodeFrom, hdigit, if_neg Bool.false_ne_true, if_pos hstep, htail,
        List.length_cons]
      simp only [valueFrom, List.foldl_cons]
      congr 2
      omega

/-- What is read as an index is a run of digits that something ends. -/
theorem eq_append_of_decodeFrom {start consumed : Nat} {bytes : Bytes} {value : UInt32} {length : Nat}
    (hstart : start < 2 ^ 32) (h : decodeFrom start consumed bytes = .ok (value, length)) :
    ∃ digits rest, bytes = digits ++ rest ∧ AreDigits digits ∧ EndIndex rest ∧
      valueFrom start digits = value.toNat ∧ consumed + digits.length = length := by
  induction bytes generalizing start consumed with
  | nil =>
      cases h
      exact ⟨[], [], rfl, areDigits_nil, endIndex_nil,
        (UInt32.toNat_ofNat_of_lt' hstart).symm, rfl⟩
  | cons byte bytes ih =>
      unfold decodeFrom at h
      split at h
      · rename_i hbyte
        cases h
        exact ⟨[], byte :: bytes, rfl, areDigits_nil, endIndex_cons hbyte,
          (UInt32.toNat_ofNat_of_lt' hstart).symm, rfl⟩
      · rename_i hbyte
        split at h
        · -- The value so far stays below `2 ^ 32`, which is what the induction is about.
          rename_i hfits
          obtain ⟨digits, rest, rfl, hdigits, hrest, hvalue, hlength⟩ := ih hfits h
          refine ⟨byte :: digits, rest, rfl, ?_, hrest, hvalue, ?_⟩
          · intro other hother
            cases hother with
            | head => exact eq_false_of_ne_true hbyte
            | tail _ hother => exact hdigits other hother
          · simp only [List.length_cons]
            omega
        · cases h

/-- Bytes decode to an index of some length exactly when so many digits spell it and something
ends it there. -/
theorem decode_eq_ok_iff {bytes : Bytes} {value : UInt32} {length : Nat} :
    decode bytes = .ok (value, length) ↔
      ∃ digits rest, bytes = digits ++ rest ∧ Spells value digits ∧ EndIndex rest ∧
        digits.length = length := by
  constructor
  · intro h
    obtain ⟨digits, rest, hbytes, hdigits, hrest, hvalue, hlength⟩ :=
      eq_append_of_decodeFrom (by decide) h
    exact ⟨digits, rest, hbytes, ⟨hdigits, hvalue⟩, hrest, by omega⟩
  · intro hparts
    obtain ⟨digits, rest, rfl, ⟨hdigits, hvalue⟩, hrest, rfl⟩ := hparts
    have hfits : valueFrom 0 digits < 2 ^ 32 := by
      rw [hvalue]
      exact value.toNat_lt
    rw [decode, decodeFrom_append 0 hdigits hrest hfits, hvalue, UInt32.ofNat_toNat, Nat.zero_add]

/-- The five digits of a word spell it. -/
theorem valueFrom_digits (value : UInt32) : valueFrom 0 (digits value) = value.toNat := by
  have hvalue := value.toNat_lt
  have hmask (n : Nat) : n &&& 127 = n % 128 := Nat.and_two_pow_sub_one_eq_mod n 7
  -- Each digit is seven bits of the word; the rest is arithmetic on quotients and remainders.
  simp only [digits, valueFrom, List.foldl_cons, List.foldl_nil, UInt8.toNat_and,
    UInt32.toNat_toUInt8, UInt32.toNat_shiftRight, UInt32.reduceToNat, UInt8.reduceToNat,
    Nat.reduceMod, Nat.shiftRight_eq_div_pow, hmask]
  omega

/-- The five digits of a word are digits. -/
theorem areDigits_digits (value : UInt32) : AreDigits (digits value) := by
  have hmask (byte : UInt8) : isOpcodeByte (byte &&& 0x7f) = false := by
    have hand : (byte &&& 0x7f).toNat = byte.toNat % 128 := by
      rw [UInt8.toNat_and]
      exact Nat.and_two_pow_sub_one_eq_mod byte.toNat 7
    refine decide_eq_false ?_
    rw [UInt8.le_iff_toNat_le, hand]
    exact Nat.not_le.mpr (Nat.mod_lt _ (by decide))
  intro byte hbyte
  simp only [digits, List.mem_cons, List.not_mem_nil, or_false] at hbyte
  rcases hbyte with rfl | rfl | rfl | rfl | rfl <;> exact hmask _

/-- Leading zeros add nothing. -/
theorem valueFrom_dropWhile (digits : Bytes) :
    valueFrom 0 (digits.dropWhile (· == 0)) = valueFrom 0 digits := by
  induction digits with
  | nil => rfl
  | cons digit digits ih =>
      by_cases hdigit : digit = 0
      · subst hdigit
        exact ih
      · simp [hdigit]

/-- The encoding of an index spells it. -/
theorem spells_encode (value : UInt32) : Spells value (encode value) := by
  refine ⟨?_, ?_⟩
  · intro byte hbyte
    exact areDigits_digits value byte (List.dropWhile_sublist _ |>.subset hbyte)
  · rw [encode, valueFrom_dropWhile, valueFrom_digits]

/-- An encoded index is read back in front of anything that ends it. -/
theorem decode_encode (value : UInt32) {rest : Bytes} (hrest : EndIndex rest) :
    decode (encode value ++ rest) = .ok (value, (encode value).length) :=
  decode_eq_ok_iff.mpr ⟨encode value, rest, rfl, spells_encode value, hrest, rfl⟩

/-- A digit is less than the base. -/
theorem toNat_lt_of_isOpcodeByte {byte : UInt8} (h : isOpcodeByte byte = false) :
    byte.toNat < 128 := by
  have hbyte := of_decide_eq_false h
  rw [UInt8.le_iff_toNat_le] at hbyte
  exact Nat.lt_of_not_le hbyte

/-- Equally many digits that give the same number are the same, and so is what they were added to. -/
theorem eq_of_valueFrom_eq {start other : Nat} {digits others : Bytes} (hdigits : AreDigits digits)
    (hothers : AreDigits others) (hlength : digits.length = others.length)
    (hvalue : valueFrom start digits = valueFrom other others) :
    start = other ∧ digits = others := by
  induction digits generalizing start other others with
  | nil =>
      obtain rfl := List.length_eq_zero_iff.mp hlength.symm
      exact ⟨hvalue, rfl⟩
  | cons first digits ih =>
      cases others with
      | nil => cases hlength
      | cons second others =>
          obtain ⟨hsum, rfl⟩ := ih (fun byte hbyte => hdigits byte (List.mem_cons_of_mem _ hbyte))
            (fun byte hbyte => hothers byte (List.mem_cons_of_mem _ hbyte))
            (Nat.succ.inj hlength) hvalue
          have hsum : start * 128 + first.toNat = other * 128 + second.toNat := hsum
          have hfirst := toNat_lt_of_isOpcodeByte (hdigits first (List.mem_cons_self ..))
          have hsecond := toNat_lt_of_isOpcodeByte (hothers second (List.mem_cons_self ..))
          have hsame : first = second := UInt8.toNat_inj.mp (by omega)
          exact ⟨by omega, by rw [hsame]⟩

/-- Leading zeros spell nothing. -/
theorem Spells.replicate_append {value : UInt32} {digits : Bytes} (h : Spells value digits)
    (count : Nat) : Spells value (List.replicate count 0 ++ digits) := by
  induction count with
  | zero => exact h
  | succ count ih =>
      refine ⟨?_, ih.value_eq⟩
      intro byte hbyte
      cases hbyte with
      | head => rfl
      | tail _ hbyte => exact ih.digits byte hbyte

/-- The encoding of an index does not begin with a zero. -/
theorem head?_encode (value : UInt32) : (encode value).head? ≠ some 0 := by
  intro hhead
  have hdropped := List.head?_dropWhile_not (· == 0) (digits value)
  rw [show ((digits value).dropWhile (· == 0)).head? = some 0 from hhead] at hdropped
  cases hdropped

/-- No other digits that are as few spell an index. -/
theorem eq_encode_of_length_le {value : UInt32} {digits : Bytes} (h : Spells value digits)
    (hlength : digits.length ≤ (encode value).length) : digits = encode value := by
  have hpadded := h.replicate_append ((encode value).length - digits.length)
  have hencoded := spells_encode value
  obtain ⟨-, hsame⟩ := eq_of_valueFrom_eq hpadded.digits hencoded.digits
    (by rw [List.length_append, List.length_replicate]; omega)
    (hpadded.value_eq.trans hencoded.value_eq.symm)
  -- A zero in front would be the first digit of the encoding, which has none.
  cases hcount : (encode value).length - digits.length with
  | zero => rwa [hcount] at hsame
  | succ count =>
      rw [hcount] at hsame
      exact absurd (by rw [← hsame]; rfl) (head?_encode value)

/-- The encoding of an index is the shortest. -/
theorem isShortest_encode (value : UInt32) : IsShortest value (encode value) where
  spells := spells_encode value
  length_le := by
    intro others hothers
    rcases Nat.le_total (encode value).length others.length with hle | hle
    · exact hle
    · exact Nat.le_of_eq (congrArg List.length (eq_encode_of_length_le hothers hle)).symm

/-- The shortest bytes that spell an index are its encoding. -/
theorem IsShortest.eq_encode {value : UInt32} {bytes : Bytes} (h : IsShortest value bytes) :
    bytes = encode value :=
  eq_encode_of_length_le h.spells (h.length_le _ (spells_encode value))

end StageArchive.IndexCode
