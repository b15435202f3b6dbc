import StageArchive.Proofs.Binary.Exact
import StageArchive.Scalar
/-!
# Fixed-point words

A scalar's bits are read field by field, as the sign, the exponent and the fraction of a number
(`Scalar.number?`). A fixed-point word is then the two's complement of that number times the scale, truncated
toward zero and held at the ends of the range: the product of floats is exact, or so great that the word is
at an end of the range anyhow. The main statement is `ScalarEncoding.encode_truncates`.
-/

namespace StageArchive

open Binary

/-- The number in the bits of a scalar: a sign, eight bits for an exponent and 23 for a fraction. -/
def Scalar.number? (scalar : Scalar) : Option Extended :=
  let bits := scalar.bits.toNat
  let negative := bits.testBit 31
  let field : Nat := bits / 2 ^ 23 % 2 ^ 8
  let fraction : Nat := bits % 2 ^ 23
  let part : ℚ := (fraction : ℚ) / ((2 ^ 23 : Nat) : ℚ)
  if field = 255 then
    if fraction = 0 then some (if negative then ⊥ else ⊤) else none
  else if field = 0 then
    some (signed negative (part * (2 : ℚ) ^ (-126 : Int)) : ℚ)
  else
    some (signed negative ((1 + part) * (2 : ℚ) ^ ((field : Int) - 127)) : ℚ)

/-- A number without its fraction. -/
def truncated (number : ℚ) : Int :=
  if 0 ≤ number then ⌊number⌋ else ⌈number⌉

/-- The two's complement of an integer. -/
def twosComplement (value : Int) : UInt32 :=
  UInt32.ofNat (value % 2 ^ 32).toNat

/-- A number truncated toward zero and held at the ends of the range; infinities are beyond the ends. -/
def heldWord : Extended → Int
  | ⊥ => -(2 ^ 31)
  | (number : ℚ) => clampWord (truncated number)
  | ⊤ => 2 ^ 31 - 1

/-- A fraction is a whole number with a lesser exponent. -/
theorem fraction_mul (number : ℚ) (exponent : Int) :
    number / ((2 ^ 23 : Nat) : ℚ) * (2 : ℚ) ^ exponent = number * (2 : ℚ) ^ (exponent - 23) := by
  rw [zpow_sub₀ two_ne_zero, ← two_zpow_natCast, div_mul_eq_mul_div, mul_div_assoc]
  rfl

/-- What a pattern of the 32-bit format denotes. -/
theorem denote_single (bits : Nat) :
    single.denote bits =
      let magnitude := bits % 2 ^ 31
      if magnitude = 255 * 2 ^ 23 then .infinite (bits.testBit 31)
      else if 255 * 2 ^ 23 < magnitude then .notANumber
      else if magnitude / 2 ^ 23 = 0 then .finite (bits.testBit 31) (magnitude % 2 ^ 23) (-149)
      else .finite (bits.testBit 31) (magnitude % 2 ^ 23 + 2 ^ 23)
        (-149 + (((magnitude / 2 ^ 23 : Nat) : Int) - 1)) := by
  have hsign : (bits / single.signWeight % 2 == 1) = bits.testBit 31 := by
    rw [Nat.testBit_eq_decide_div_mod_eq]
    rfl
  unfold Format.denote
  simp only [hsign, beq_iff_eq]
  rfl

/-- The fields of a scalar say what it denotes. -/
theorem Scalar.number?_eq (scalar : Scalar) : scalar.number? = scalar.denote.number? := by
  unfold Scalar.number? Scalar.denote
  rw [denote_single]
  generalize scalar.bits.toNat = bits
  -- Both readings depend on the bits below the sign only.
  have hfield : bits / 2 ^ 23 % 2 ^ 8 = bits % 2 ^ 31 / 2 ^ 23 := by
    omega
  have hfraction : bits % 2 ^ 23 = bits % 2 ^ 31 % 2 ^ 23 := by
    omega
  have hmagnitude : bits % 2 ^ 31 < 2 ^ 31 := Nat.mod_lt _ (by decide)
  dsimp only
  rw [hfield, hfraction]
  generalize bits % 2 ^ 31 = magnitude at hmagnitude
  by_cases hlast : magnitude / 2 ^ 23 = 255
  · by_cases hnone : magnitude % 2 ^ 23 = 0
    · have hinfinity : magnitude = 255 * 2 ^ 23 := by
        omega
      rw [if_pos hlast, if_pos hnone, if_pos hinfinity]
      rfl
    · have hbeyond : 255 * 2 ^ 23 < magnitude := by
        omega
      rw [if_pos hlast, if_neg hnone, if_neg hbeyond.ne', if_pos hbeyond]
      rfl
  · have hbelow : magnitude < 255 * 2 ^ 23 := by
      omega
    by_cases hfirst : magnitude / 2 ^ 23 = 0
    · rw [if_neg hlast, if_pos hfirst, if_neg hbelow.ne, if_neg hbelow.not_gt, if_pos hfirst, fraction_mul]
      rfl
    · have hexponent (field : Int) : field - 127 - 23 = -149 + (field - 1) := by
        omega
      rw [if_neg hlast, if_neg hfirst, if_neg hbelow.ne, if_neg hbelow.not_gt, if_neg hfirst,
        one_add_div (by norm_num), fraction_mul, hexponent, add_comm ((2 ^ 23 : Nat) : ℚ), ← Nat.cast_add]
      rfl

/-- A word holds the two's complement of an integer. -/
theorem toUInt32_ofInt (value : Int) : (Int32.ofInt value).toUInt32 = twosComplement value := by
  refine UInt32.toNat_inj.mp ?_
  show (BitVec.ofInt 32 value).toNat = _
  rw [BitVec.toNat_ofInt, twosComplement, UInt32.toNat_ofNat']
  have hlt := Int.emod_lt_of_pos value (show (0 : Int) < 2 ^ 32 by decide)
  have hle := Int.emod_nonneg value (show (2 ^ 32 : Int) ≠ 0 by decide)
  omega

/-- Truncation goes toward zero on either side. -/
theorem truncated_signed (negative : Bool) {magnitude : ℚ} (h : 0 ≤ magnitude) :
    truncated (signed negative magnitude) = if negative then -⌊magnitude⌋ else ⌊magnitude⌋ := by
  cases negative with
  | false => exact if_pos h
  | true =>
      show truncated (-magnitude) = -⌊magnitude⌋
      unfold truncated
      rcases h.eq_or_lt with rfl | hpos
      · simp
      · rw [if_neg (by linarith), Int.ceil_neg]

/-- An integer has no fraction. -/
theorem truncated_intCast (value : Int) : truncated (value : ℚ) = value := by
  unfold truncated
  split
  · exact Int.floor_intCast value
  · exact Int.ceil_intCast value

/-- Truncation keeps the order. -/
theorem truncated_mono {number other : ℚ} (h : number ≤ other) :
    truncated number ≤ truncated other := by
  unfold truncated
  by_cases hnumber : 0 ≤ number
  · rw [if_pos hnumber, if_pos (hnumber.trans h)]
    exact Int.floor_le_floor h
  · rw [if_neg hnumber]
    by_cases hother : 0 ≤ other
    · rw [if_pos hother]
      have hceil : ⌈number⌉ ≤ 0 := Int.ceil_le.mpr (by exact_mod_cast (not_le.mp hnumber).le)
      exact hceil.trans (Int.floor_nonneg.mpr hother)
    · rw [if_neg hother]
      exact Int.ceil_le_ceil h

/-- Holding keeps the order. -/
theorem clampWord_mono {value other : Int} (h : value ≤ other) : clampWord value ≤ clampWord other := by
  unfold clampWord
  omega

/-- A held integer is in the range. -/
theorem clampWord_bounds (value : Int) :
    -(2 ^ 31) ≤ clampWord value ∧ clampWord value ≤ 2 ^ 31 - 1 := by
  unfold clampWord
  omega

/-- An integer in the range is held where it is. -/
theorem clampWord_eq {value : Int} (hle : -(2 ^ 31) ≤ value) (hlt : value < 2 ^ 31) :
    clampWord value = value := by
  unfold clampWord
  omega

/-- Words are in the range. -/
theorem heldWord_bounds (number : Extended) :
    -(2 ^ 31) ≤ heldWord number ∧ heldWord number ≤ 2 ^ 31 - 1 := by
  match number with
  | ⊥ => exact ⟨le_rfl, by decide⟩
  | (number : ℚ) => exact clampWord_bounds (truncated number)
  | ⊤ => exact ⟨by decide, le_rfl⟩

/-- Words keep the order of numbers. -/
theorem heldWord_mono {number other : Extended} (h : number ≤ other) :
    heldWord number ≤ heldWord other := by
  match number, other with
  | ⊥, _ => exact (heldWord_bounds _).1
  | _, ⊤ => exact (heldWord_bounds _).2
  | (number : ℚ), (other : ℚ) => exact clampWord_mono (truncated_mono (WithBotTop.coe_le_coe.mp h))
  | (number : ℚ), ⊥ => exact absurd (le_bot_iff.mp h) (WithBotTop.coe_ne_bot number)
  | ⊤, ⊥ => exact absurd (le_bot_iff.mp h) WithBotTop.top_ne_bot
  | ⊤, (other : ℚ) => exact absurd (top_le_iff.mp h) (WithBotTop.coe_ne_top other)

/-- What denotes a number is truncated to its word. -/
theorem truncate_eq {meaning : Denotation} {number : Extended}
    (h : meaning.number? = some number) : meaning.truncate = heldWord number := by
  cases meaning with
  | notANumber => cases h
  | infinite negative =>
      cases h
      cases negative <;> rfl
  | finite negative mantissa exponent =>
      cases h
      have hfloor : ⌊(mantissa : ℚ) * (2 : ℚ) ^ exponent⌋ =
          (mantissa : Int) * 2 ^ exponent.toNat / 2 ^ (-exponent).toNat := by
        rw [two_zpow_eq_div, mul_div_assoc', ← Nat.cast_mul, Rat.floor_natCast_div_natCast]
        push_cast
        rfl
      show clampWord (if negative then -((mantissa : Int) * 2 ^ exponent.toNat / 2 ^ (-exponent).toNat)
        else (mantissa : Int) * 2 ^ exponent.toNat / 2 ^ (-exponent).toNat) = clampWord (truncated _)
      rw [truncated_signed negative (by positivity), hfloor]

/-- A number times a power of two; the infinities stay. -/
def scaledBy (shift : Nat) : Extended → Extended :=
  WithBot.map (WithTop.map (· * (2 : ℚ) ^ (shift : Int)))

/-- Scaling keeps the order. -/
theorem scaledBy_mono (shift : Nat) {number other : Extended} (h : number ≤ other) :
    scaledBy shift number ≤ scaledBy shift other := by
  have hmono : Monotone (· * (2 : ℚ) ^ (shift : Int)) :=
    fun _ _ hle => mul_le_mul_of_nonneg_right hle (by positivity)
  exact hmono.withTop_map.withBot_map h

/-- The least power of two that is too great for a scalar. -/
theorem overflow_single : single.overflow = ((2 ^ 128 : Nat) : ℚ) :=
  two_zpow_natCast 128

/-- What is too great for a scalar is beyond the ends of the range. -/
theorem heldWord_saturated (number : ℚ) :
    heldWord (single.saturated number) = clampWord (truncated number) := by
  unfold Format.saturated
  by_cases hsmall : |number| < single.overflow
  · rw [if_pos hsmall]
    rfl
  · -- An infinity is held at the end that its exact number would be held at.
    have hgreat : ((2 ^ 31 : Nat) : ℚ) ≤ |number| := by
      refine le_trans ?_ (not_lt.mp hsmall)
      rw [overflow_single]
      norm_num
    rw [if_neg hsmall]
    by_cases hnegative : number < 0
    · rw [abs_of_neg hnegative] at hgreat
      have hle : ⌈number⌉ ≤ -(2 ^ 31) := Int.ceil_le.mpr (by push_cast at hgreat ⊢; linarith)
      rw [if_pos hnegative, truncated, if_neg hnegative.not_ge]
      show -(2 ^ 31) = clampWord _
      unfold clampWord
      omega
    · rw [abs_of_nonneg (not_lt.mp hnegative)] at hgreat
      have hle : 2 ^ 31 ≤ ⌊number⌋ := Int.le_floor.mpr (by push_cast at hgreat ⊢; linarith)
      rw [if_neg hnegative, truncated, if_pos (not_lt.mp hnegative)]
      show 2 ^ 31 - 1 = clampWord _
      unfold clampWord
      omega

/-- A scalar of a pattern denotes what the pattern does. -/
theorem Scalar.denote_ofPattern {pattern : Nat} (h : pattern < 2 * single.signWeight) :
    (Scalar.ofPattern pattern).denote = single.denote pattern := by
  unfold Scalar.ofPattern Scalar.denote
  rw [UInt32.toNat_ofNat_of_lt' h]

/-- A product of a scalar is exact, or the infinity of its sign. -/
theorem Scalar.number?_scale {scalar : Scalar} {number : ℚ}
    (h : scalar.number? = some (number : Extended)) {shift : Int}
    (hproduct : single.Holds (number * (2 : ℚ) ^ shift)) :
    (scalar.scale shift).number? = some (single.saturated (number * (2 : ℚ) ^ shift)) := by
  rw [Scalar.number?_eq, Scalar.scale, Scalar.denote_ofPattern (single.scale_lt _ _)]
  exact Format.number?_scale (by decide) (scalar.number?_eq ▸ h) hproduct

/-- An infinity has itself as product. -/
theorem Scalar.denote_scale_infinite {scalar : Scalar} {negative : Bool}
    (h : scalar.denote = .infinite negative) (shift : Int) :
    (scalar.scale shift).denote = .infinite negative := by
  rw [Scalar.scale, Scalar.denote_ofPattern (single.scale_lt _ _)]
  exact Format.denote_scale_infinite h shift

/-- Integers of at most 25 bits, and their quotients by small powers of two, are exact. -/
theorem holds_intCast_mul {value : Int} (h : |value| ≤ 2 ^ 24) {shift : Nat} (hshift : shift ≤ 149) :
    single.Holds ((value : ℚ) * (2 : ℚ) ^ (-(shift : Int))) := by
  obtain ⟨mantissa, carry, hlt, hcarry⟩ :
      ∃ mantissa carry, mantissa < 2 ^ 24 ∧ value.natAbs = mantissa * 2 ^ carry := by
    rw [Int.abs_eq_natAbs] at h
    rcases Nat.lt_or_ge value.natAbs (2 ^ 24) with hlt | hge
    · exact ⟨value.natAbs, 0, hlt, (Nat.mul_one _).symm⟩
    · exact ⟨2 ^ 23, 1, by decide, by omega⟩
  refine ⟨mantissa, 149 - shift + carry, hlt, ?_⟩
  have hleast : single.leastExponent = -149 := rfl
  rw [abs_mul, abs_of_pos (show (0 : ℚ) < (2 : ℚ) ^ (-(shift : Int)) by positivity), ← Int.cast_abs,
    Int.abs_eq_natAbs, hcarry]
  unfold Format.value
  rw [Int.cast_natCast, Nat.cast_mul, ← two_zpow_natCast, mul_assoc, ← zpow_add₀ two_ne_zero, hleast]
  congr 2
  omega

/-- A number that is not too great for a scalar. -/
theorem saturated_of_abs_le {number : ℚ} (h : |number| ≤ ((2 ^ 24 : Nat) : ℚ)) :
    single.saturated number = (number : Extended) := by
  refine if_pos (lt_of_le_of_lt h ?_)
  rw [overflow_single]
  norm_num

/-- An integer of at most 25 bits is exact as a scalar. -/
theorem Scalar.number?_ofInt {value : Int} (h : |value| ≤ 2 ^ 24) :
    (Scalar.ofInt value).number? = some ((value : ℚ) : Extended) := by
  have hsigned : signed (decide (value < 0)) ((value.natAbs : ℚ) / ((1 : Nat) : ℚ)) = value := by
    rw [Nat.cast_one, div_one, Nat.cast_natAbs]
    by_cases hnegative : value < 0
    · rw [abs_of_neg hnegative, decide_eq_true hnegative, Int.cast_neg]
      exact neg_neg _
    · rw [abs_of_nonneg (not_lt.mp hnegative), decide_eq_false hnegative]
      rfl
  have hholds : single.Holds (value : ℚ) := by
    simpa using holds_intCast_mul h (Nat.zero_le 149)
  rw [Scalar.number?_eq, Scalar.ofInt, Scalar.denote_ofPattern (single.round_lt _ _ _),
    Format.number?_round (by decide) Nat.one_pos (hsigned ▸ hholds), hsigned,
    saturated_of_abs_le (by exact_mod_cast h)]

/-- A fixed-point word is the two's complement of the number times the scale, held in the range. -/
theorem ScalarEncoding.encode_eq {encoding : ScalarEncoding} {shift : Nat}
    (hfixed : encoding.fractionBits? = some shift) {scalar : Scalar} {number : Extended}
    (h : scalar.number? = some number) :
    encoding.encode scalar = twosComplement (heldWord (scaledBy shift number)) := by
  unfold ScalarEncoding.encode
  rw [hfixed]
  dsimp only
  rw [toUInt32_ofInt]
  congr 1
  match number with
  | ⊥ =>
      have hdenote : scalar.denote = .infinite true := Denotation.eq_infinite (scalar.number?_eq ▸ h)
      exact truncate_eq (by rw [Scalar.denote_scale_infinite hdenote]; rfl)
  | ⊤ =>
      have hdenote : scalar.denote = .infinite false := Denotation.eq_infinite (scalar.number?_eq ▸ h)
      exact truncate_eq (by rw [Scalar.denote_scale_infinite hdenote]; rfl)
  | (number : ℚ) =>
      have hproduct := (Format.holds_of_denote (scalar.number?_eq ▸ h)).mul_two_pow shift
      rw [truncate_eq ((Scalar.number?_eq _).symm.trans (Scalar.number?_scale h hproduct)),
        heldWord_saturated]
      rfl

/-- What is not a number is stored as zero. -/
theorem ScalarEncoding.encode_notANumber {encoding : ScalarEncoding} {shift : Nat}
    (hfixed : encoding.fractionBits? = some shift) {scalar : Scalar} (h : scalar.number? = none) :
    encoding.encode scalar = 0 := by
  have hdenote : scalar.denote = .notANumber := by
    rw [Scalar.number?_eq] at h
    cases hscalar : scalar.denote with
    | finite | infinite => rw [hscalar] at h; cases h
    | notANumber => rfl
  have hproduct : scalar.scale shift = Scalar.ofPattern single.quietNotANumber := by
    unfold Scalar.scale Format.scale
    rw [show single.denote scalar.bits.toNat = .notANumber from hdenote]
  unfold ScalarEncoding.encode
  rw [hfixed]
  dsimp only
  rw [hproduct]
  decide

/-- The word of a held number reads as that number. -/
theorem toInt_twosComplement {value : Int} (hle : -(2 ^ 31) ≤ value) (hlt : value < 2 ^ 31) :
    (twosComplement value).toInt32.toInt = value := by
  rw [← toUInt32_ofInt, Int32.toInt32_toUInt32]
  exact Int32.toInt_ofInt_of_le hle hlt

/-- A small integer is decoded to its exact quotient by the scale. -/
theorem ScalarEncoding.number?_decode {encoding : ScalarEncoding} {shift : Nat}
    (hfixed : encoding.fractionBits? = some shift) (hshift : shift ≤ 149) {value : Int}
    (h : |value| ≤ 2 ^ 24) :
    (encoding.decode (twosComplement value)).number? =
      some (((value : ℚ) * (2 : ℚ) ^ (-(shift : Int)) : ℚ) : Extended) := by
  have hbound := abs_le.mp h
  have hquotient : |(value : ℚ) * (2 : ℚ) ^ (-(shift : Int))| ≤ ((2 ^ 24 : Nat) : ℚ) := by
    have hscale : (2 : ℚ) ^ (-(shift : Int)) ≤ 1 :=
      zpow_le_one_of_nonpos₀ one_le_two (Int.neg_nonpos_of_nonneg (Int.natCast_nonneg shift))
    rw [abs_mul, abs_of_pos (show (0 : ℚ) < (2 : ℚ) ^ (-(shift : Int)) by positivity)]
    exact (mul_le_of_le_one_right (abs_nonneg _) hscale).trans (by exact_mod_cast h)
  unfold ScalarEncoding.decode
  rw [hfixed]
  dsimp only
  rw [toInt_twosComplement (by omega) (by omega),
    Scalar.number?_scale (Scalar.number?_ofInt h) (holds_intCast_mul h hshift),
    saturated_of_abs_le hquotient]

namespace ScalarEncoding

/-- A fixed-point word is the number times the scale, truncated toward zero and held at the ends of the
range; an infinity gives an end and what is not a number gives zero. The product of floats is exact unless it
is too great. Greater numbers have no lesser words, and an integer of at most 25 bits comes back from the
scalar that it is decoded to. -/
theorem encode_truncates {encoding : ScalarEncoding} {shift : Nat}
    (hfixed : encoding = .fixed16 ∧ shift = 16 ∨ encoding = .fixed20 ∧ shift = 12) :
    (∀ (scalar : Scalar) (number : ℚ), scalar.number? = some (number : Extended) →
      let product : ℚ := number * ((2 ^ shift : Nat) : ℚ)
      encoding.encode scalar =
          twosComplement (max (-(2 ^ 31)) (min (truncated product) (2 ^ 31 - 1))) ∧
        (scalar.scale shift).number? = some
          (if |product| < ((2 ^ 128 : Nat) : ℚ) then (product : Extended)
          else if product < 0 then ⊥ else ⊤)) ∧
    (∀ scalar : Scalar, scalar.number? = some ⊤ →
      encoding.encode scalar = twosComplement (2 ^ 31 - 1)) ∧
    (∀ scalar : Scalar, scalar.number? = some ⊥ →
      encoding.encode scalar = twosComplement (-(2 ^ 31))) ∧
    (∀ scalar : Scalar, scalar.number? = none → encoding.encode scalar = 0) ∧
    (∀ (scalar other : Scalar) (number greater : Extended), scalar.number? = some number →
      other.number? = some greater → number ≤ greater →
        (encoding.encode scalar).toInt32.toInt ≤ (encoding.encode other).toInt32.toInt) ∧
    ∀ value : Int, |value| ≤ 2 ^ 24 →
      encoding.encode (encoding.decode (twosComplement value)) = twosComplement value := by
  have hbits : encoding.fractionBits? = some shift := by
    rcases hfixed with ⟨rfl, rfl⟩ | ⟨rfl, rfl⟩ <;> rfl
  have hshift : shift ≤ 149 := by
    omega
  have hword (number : Extended) :
      (twosComplement (heldWord number)).toInt32.toInt = heldWord number := by
    obtain ⟨hle, hlt⟩ := heldWord_bounds number
    exact toInt_twosComplement hle (Int.lt_of_le_sub_one hlt)
  refine ⟨fun scalar number hnumber => ?_, fun scalar htop => encode_eq hbits htop,
    fun scalar hbot => encode_eq hbits hbot, fun scalar hnone => encode_notANumber hbits hnone,
    fun scalar other number greater hnumber hgreater hle => ?_, fun value hvalue => ?_⟩
  · have hproduct := (Format.holds_of_denote (scalar.number?_eq ▸ hnumber)).mul_two_pow shift
    rw [← two_zpow_natCast, ← overflow_single]
    exact ⟨encode_eq hbits hnumber, Scalar.number?_scale hnumber hproduct⟩
  · rw [encode_eq hbits hnumber, encode_eq hbits hgreater, hword, hword]
    exact heldWord_mono (scaledBy_mono shift hle)
  · have hbound := abs_le.mp hvalue
    rw [encode_eq hbits (number?_decode hbits hshift hvalue)]
    show twosComplement (clampWord (truncated
      ((value : ℚ) * (2 : ℚ) ^ (-(shift : Int)) * (2 : ℚ) ^ (shift : Int)))) = _
    rw [mul_assoc, ← zpow_add₀ two_ne_zero, neg_add_cancel, zpow_zero, mul_one, truncated_intCast,
      clampWord_eq (by omega) (by omega)]

/-- A product just below minus one is truncated to minus one, infinity is stored as the greatest word, and
minus one comes back from its own scalar. -/
theorem encode_truncates_belowMinusOne :
    fixed20.encode ⟨0xb9800001⟩ = 0xffffffff ∧ fixed20.encode ⟨0x7f800000⟩ = 0x7fffffff ∧
      fixed20.encode (fixed20.decode (twosComplement (-1))) = twosComplement (-1) := by
  obtain ⟨hfinite, htop, -, -, -, hback⟩ := @encode_truncates fixed20 12 (.inr ⟨rfl, rfl⟩)
  obtain ⟨hencode, -⟩ := hfinite ⟨0xb9800001⟩ _ rfl
  have htruncated : truncated (signed true ((1 + ((1 : Nat) : ℚ) / ((2 ^ 23 : Nat) : ℚ)) *
      (2 : ℚ) ^ (((115 : Nat) : Int) - 127)) * ((2 ^ 12 : Nat) : ℚ)) = -1 := by
    rw [truncated, if_neg (by norm_num [signed]), Int.ceil_eq_iff]
    norm_num [signed]
  have hinfinity : Scalar.number? ⟨0x7f800000⟩ = some ⊤ := rfl
  refine ⟨hencode.trans ?_, (htop _ hinfinity).trans (by decide), hback (-1) (by decide)⟩
  exact congrArg (fun value => twosComplement (max (-(2 ^ 31)) (min value (2 ^ 31 - 1)))) htruncated

end ScalarEncoding

end StageArchive
