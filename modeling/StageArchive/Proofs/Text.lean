import StageArchive.Text.Encoding
/-!
# Text and its bytes

Text is read back from its bytes, and the bytes of a text are those of its characters, one after
the other. Only the zero character has a zero byte, and texts are in the order of their bytes.
-/

namespace StageArchive.Text

/-- Text is read back from its bytes. -/
@[simp]
theorem ofUtf8?_utf8 (text : String) : ofUtf8? (utf8 text) = some text := by
  have hbytes : (⟨(utf8 text).toArray⟩ : ByteArray) = text.toByteArray := rfl
  rw [ofUtf8?, String.fromUTF8?, hbytes, dif_pos text.isValidUTF8]
  rfl

/-- The bytes of characters. -/
def charBytes (characters : List Char) : Bytes :=
  characters.flatMap String.utf8EncodeChar

/-- The bytes of a text are those of its characters. -/
theorem utf8_eq_charBytes (text : String) : utf8 text = charBytes text.toList := by
  have hbytes : text.toByteArray = (charBytes text.toList).toByteArray := by
    rw [← String.utf8Encode_toList]
    rfl
  rw [utf8, String.toUTF8_eq_toByteArray, hbytes, List.data_toByteArray, List.toList_toArray]

/-- The text with no characters has no bytes, and no other text has none. -/
theorem utf8_eq_nil {text : String} : utf8 text = [] ↔ text = "" := by
  rw [utf8_eq_charBytes, charBytes, List.flatMap_eq_nil_iff]
  constructor
  · intro h
    cases hchars : text.toList with
    | nil => exact String.toList_eq_nil_iff.mp hchars
    | cons c rest =>
        rw [hchars] at h
        exact absurd (h c (List.mem_cons_self ..)) String.utf8EncodeChar_ne_nil
  · rintro rfl c hc
    cases hc

/-- Only the zero character has a zero byte. -/
theorem zero_mem_utf8EncodeChar {c : Char} : 0 ∈ String.utf8EncodeChar c ↔ c = '\x00' := by
  constructor
  · intro h
    simp only [String.utf8EncodeChar] at h
    split at h
    · rename_i hsmall
      rw [List.mem_singleton] at h
      have hvalue := congrArg UInt8.toNat h
      rw [UInt8.toNat_ofNat'] at hvalue
      apply Char.ext
      apply UInt32.toNat_inj.mp
      change 0 = _ at hvalue
      show c.val.toNat = 0
      omega
    · -- Every byte of a longer encoding has its highest bit set.
      split at h
      · simp only [List.mem_cons, List.not_mem_nil, or_false, ← UInt8.toNat_inj,
          UInt8.toNat_ofNat', UInt8.reduceToNat] at h
        omega
      · split at h
        · simp only [List.mem_cons, List.not_mem_nil, or_false, ← UInt8.toNat_inj,
            UInt8.toNat_ofNat', UInt8.reduceToNat] at h
          omega
        · simp only [List.mem_cons, List.not_mem_nil, or_false, ← UInt8.toNat_inj,
            UInt8.toNat_ofNat', UInt8.reduceToNat] at h
          omega
  · rintro rfl
    decide

/-- Characters have a zero byte exactly when one of them is the zero character. -/
theorem zero_mem_charBytes {characters : List Char} :
    0 ∈ charBytes characters ↔ '\x00' ∈ characters := by
  simp [charBytes, List.mem_flatMap, zero_mem_utf8EncodeChar]

/-- A text has a zero byte exactly when it has the zero character. -/
theorem zero_mem_utf8 {text : String} : 0 ∈ utf8 text ↔ '\x00' ∈ text.toList := by
  rw [utf8_eq_charBytes, zero_mem_charBytes]

/-- Numbers are in the order of their digits to the base 64. -/
theorem digits_lt {m n : Nat} (h : m < n) :
    m / 64 < n / 64 ∨ m / 64 = n / 64 ∧ m % 64 < n % 64 := by
  omega

/-- The bytes of a character come before those of any behind it, whatever follows. -/
theorem utf8EncodeChar_append_lt {c d : Char} (h : c < d) (first second : Bytes) :
    String.utf8EncodeChar c ++ first < String.utf8EncodeChar d ++ second := by
  have hbefore : c.val.toNat < d.val.toNat := UInt32.lt_iff_toNat_lt.mp (Char.lt_def.mp h)
  have hbound : d.val.toNat < 0x110000 := by
    have hvalid := d.valid
    simp only [UInt32.isValidChar, Nat.isValidChar] at hvalid
    omega
  have hlast := digits_lt hbefore
  have hthird : c.val.toNat / 64 < d.val.toNat / 64 → _ := digits_lt
  have hsecond : c.val.toNat / 64 / 64 < d.val.toNat / 64 / 64 → _ := digits_lt
  simp only [Nat.div_div_eq_div_mul, Nat.reduceMul] at hthird hsecond
  simp only [String.utf8EncodeChar]
  -- The first byte says how many follow; of characters with as many bytes the digits decide.
  repeat' split
  all_goals
    simp only [List.cons_append, List.nil_append, List.cons_lt_cons_iff, UInt8.lt_iff_toNat_lt,
      ← UInt8.toNat_inj, UInt8.toNat_ofNat']
    simp (disch := omega) only [Nat.mod_eq_of_lt]
    omega

/-- The bytes of characters are in the order of the characters. -/
theorem charBytes_lt {first second : List Char} (h : first < second) :
    charBytes first < charBytes second := by
  induction first generalizing second with
  | nil =>
      cases second with
      | nil => cases h
      | cons c rest =>
          cases hbytes : charBytes (c :: rest) with
          | nil => exact absurd (List.append_eq_nil_iff.mp hbytes).1 String.utf8EncodeChar_ne_nil
          | cons byte bytes => exact List.nil_lt_cons byte bytes
  | cons c rest ih =>
      cases second with
      | nil => cases h
      | cons d others =>
          rcases List.cons_lt_cons_iff.mp h with hchar | ⟨rfl, hrest⟩
          · exact utf8EncodeChar_append_lt hchar _ _
          · exact List.append_left_lt (ih hrest)

/-- Text is in the order of its bytes. -/
theorem utf8_lt_utf8_iff {first second : String} : utf8 first < utf8 second ↔ first < second := by
  have hmono {first second : String} (h : first < second) : utf8 first < utf8 second := by
    rw [utf8_eq_charBytes, utf8_eq_charBytes]
    exact charBytes_lt (String.lt_iff.mp h)
  refine ⟨fun h => ?_, hmono⟩
  refine String.not_le.mp fun hle => ?_
  by_cases hsame : first = second
  · exact List.lt_irrefl _ (hsame ▸ h)
  · exact List.lt_asymm h (hmono (String.not_le.mp fun hback => hsame (String.le_antisymm hback hle)))

end StageArchive.Text
