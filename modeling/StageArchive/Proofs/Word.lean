import StageArchive.ByteOrder
/-!
# Words and their bytes

A word and its four bytes determine each other in either order. `word?_encode` says that a word is
read back where it was written, and `eq_encode_of_word?` that four bytes are the encoding of the
word that is read from them.
-/

namespace StageArchive.ByteOrder

/-- The value of a word is the base-256 value of its bytes. -/
theorem toNat_assemble (b₃ b₂ b₁ b₀ : UInt8) :
    (assemble b₃ b₂ b₁ b₀).toNat =
      b₃.toNat * 2 ^ 24 + b₂.toNat * 2 ^ 16 + b₁.toNat * 2 ^ 8 + b₀.toNat := by
  have h₃ := b₃.toNat_lt
  have h₂ := b₂.toNat_lt
  have h₁ := b₁.toNat_lt
  have h₀ := b₀.toNat_lt
  have hshift (n : Nat) : n <<< 24 = (n <<< 8) <<< 16 := by rw [← Nat.shiftLeft_add]
  have hshift' (n : Nat) : n <<< 16 = (n <<< 8) <<< 8 := by rw [← Nat.shiftLeft_add]
  unfold assemble
  simp only [UInt32.toNat_or, UInt32.toNat_shiftLeft, UInt8.toNat_toUInt32,
    UInt32.reduceToNat, Nat.reduceMod]
  rw [Nat.mod_eq_of_lt (by simp only [Nat.shiftLeft_eq]; omega),
    Nat.mod_eq_of_lt (by simp only [Nat.shiftLeft_eq]; omega),
    Nat.mod_eq_of_lt (by simp only [Nat.shiftLeft_eq]; omega)]
  -- Each byte fits below the bits of the bytes before it, so `or` adds.
  rw [hshift, ← Nat.shiftLeft_or_distrib, ← Nat.shiftLeft_add_eq_or_of_lt h₂, hshift',
    ← Nat.shiftLeft_or_distrib, ← Nat.shiftLeft_add_eq_or_of_lt h₁,
    ← Nat.shiftLeft_add_eq_or_of_lt h₀]
  simp only [Nat.shiftLeft_eq]
  omega

/-- The bytes of a word give the word. -/
theorem assemble_bytes (word : UInt32) :
    assemble (word >>> 24).toUInt8 (word >>> 16).toUInt8 (word >>> 8).toUInt8 word.toUInt8 =
      word := by
  have hword := word.toNat_lt
  apply UInt32.toNat_inj.mp
  rw [toNat_assemble]
  simp only [UInt32.toNat_toUInt8, UInt32.toNat_shiftRight, UInt32.reduceToNat, Nat.reduceMod,
    Nat.shiftRight_eq_div_pow]
  omega

/-- The word of four bytes has these bytes. -/
theorem mostSignificantFirst_assemble (b₃ b₂ b₁ b₀ : UInt8) :
    mostSignificantFirst (assemble b₃ b₂ b₁ b₀) = [b₃, b₂, b₁, b₀] := by
  have h₃ := b₃.toNat_lt
  have h₂ := b₂.toNat_lt
  have h₁ := b₁.toNat_lt
  have h₀ := b₀.toNat_lt
  simp only [mostSignificantFirst, List.cons.injEq, ← UInt8.toNat_inj, and_true,
    UInt32.toNat_toUInt8, UInt32.toNat_shiftRight, toNat_assemble, UInt32.reduceToNat,
    Nat.reduceMod, Nat.shiftRight_eq_div_pow]
  omega

/-- The encoding of the word that four bytes decode to. -/
@[simp]
theorem encode_decode (order : ByteOrder) (first second third fourth : UInt8) :
    order.encode (order.decode first second third fourth) = [first, second, third, fourth] := by
  cases order with
  | big => exact mostSignificantFirst_assemble first second third fourth
  | little =>
      show (mostSignificantFirst (assemble fourth third second first)).reverse = _
      rw [mostSignificantFirst_assemble]
      rfl

/-- A word is read back from the front of its bytes, whatever follows them. -/
@[simp]
theorem word?_encode (order : ByteOrder) (word : UInt32) (rest : Bytes) :
    order.word? (order.encode word ++ rest) 0 = some word := by
  cases order <;> exact congrArg some (assemble_bytes word)

/-- A word is read back behind other bytes. -/
theorem word?_append (order : ByteOrder) (before : Bytes) (word : UInt32) (rest : Bytes)
    {offset : Nat} (hoffset : before.length = offset) :
    order.word? (before ++ order.encode word ++ rest) offset = some word := by
  have hdrop : (before ++ order.encode word ++ rest).drop offset = order.encode word ++ rest := by
    rw [List.append_assoc, ← hoffset, List.drop_left]
  have hread := word?_encode order word rest
  unfold word? at hread ⊢
  rw [hdrop]
  simpa only [List.drop_zero] using hread

/-- The bytes from which a word is read are its encoding and what follows. -/
theorem eq_encode_of_word? {order : ByteOrder} {bytes : Bytes} {offset : Nat} {word : UInt32}
    (h : order.word? bytes offset = some word) :
    bytes.drop offset = order.encode word ++ bytes.drop (offset + 4) := by
  unfold word? at h
  split at h
  · rename_i first second third fourth rest hbytes
    obtain rfl := Option.some.inj h
    have hrest : bytes.drop (offset + 4) = rest := by
      rw [← List.drop_drop, hbytes]
      rfl
    rw [hbytes, hrest, encode_decode]
    rfl
  · cases h

end StageArchive.ByteOrder
