import Mathlib.Algebra.Order.Field.Power
import Mathlib.Data.Int.Log
import Mathlib.Data.Rat.Floor
import Mathlib.Order.WithBotTop
import Mathlib.Tactic.Positivity
import Mathlib.Tactic.Ring
import StageArchive.Binary.Format
/-!
# Products with powers of two

A pattern of a format has a mantissa and the distance of its exponent from the least one, and stands for the
mantissa times a power of two. A number that has such a mantissa is rounded to the pattern that denotes it,
and to an infinity where it is too great (`Format.number?_round`). The product of such a number and a power of
two is exact in the same sense, unless bits are shifted out at the least exponent (`Format.number?_scale`).
-/

namespace StageArchive.Binary

/-- A rational number or one of the infinities. -/
abbrev Extended := WithBotTop ℚ

/-- A number with a sign. -/
def signed (negative : Bool) (magnitude : ℚ) : ℚ :=
  if negative then -magnitude else magnitude

/-- The number that is denoted, where one is. -/
def Denotation.number? : Denotation → Option Extended
  | .finite negative mantissa exponent => some (signed negative (mantissa * (2 : ℚ) ^ exponent) : ℚ)
  | .infinite negative => some (if negative then ⊥ else ⊤)
  | .notANumber => none

/-- A sign does not change a magnitude. -/
theorem abs_signed (negative : Bool) {magnitude : ℚ} (h : 0 ≤ magnitude) :
    |signed negative magnitude| = magnitude := by
  cases negative with
  | false => exact abs_of_nonneg h
  | true => exact (abs_neg magnitude).trans (abs_of_nonneg h)

/-- A sign stands before a product. -/
theorem signed_mul (negative : Bool) (magnitude factor : ℚ) :
    signed negative (magnitude * factor) = signed negative magnitude * factor := by
  cases negative with
  | false => rfl
  | true => exact (neg_mul magnitude factor).symm

/-- Only a denotation of a sign, a mantissa and an exponent is a rational number. -/
theorem Denotation.eq_finite {meaning : Denotation} {number : ℚ}
    (h : meaning.number? = some (number : Extended)) :
    ∃ negative mantissa exponent, meaning = .finite negative mantissa exponent ∧
      number = signed negative (mantissa * (2 : ℚ) ^ exponent) := by
  cases meaning with
  | finite negative mantissa exponent =>
      refine ⟨negative, mantissa, exponent, rfl, ?_⟩
      exact (WithBotTop.coe_injective (Option.some.inj h)).symm
  | infinite negative =>
      cases negative with
      | false => exact absurd (Option.some.inj h).symm (WithBotTop.coe_ne_top number)
      | true => exact absurd (Option.some.inj h).symm (WithBotTop.coe_ne_bot number)
  | notANumber => cases h

/-- Only a denotation of an infinity is one. -/
theorem Denotation.eq_infinite {meaning : Denotation} {negative : Bool}
    (h : meaning.number? = some (if negative then ⊥ else ⊤)) : meaning = .infinite negative := by
  cases meaning with
  | finite sign mantissa exponent =>
      cases negative with
      | false => exact absurd (Option.some.inj h) (WithBotTop.coe_ne_top _)
      | true => exact absurd (Option.some.inj h) (WithBotTop.coe_ne_bot _)
  | infinite sign =>
      cases sign <;> cases negative <;> first | rfl | cases Option.some.inj h
  | notANumber => cases h

/-- A power of two is a quotient of natural powers. -/
theorem two_zpow_eq_div (exponent : Int) :
    (2 : ℚ) ^ exponent = ((2 ^ exponent.toNat : Nat) : ℚ) / ((2 ^ (-exponent).toNat : Nat) : ℚ) := by
  rcases Int.eq_nat_or_neg exponent with ⟨n, rfl | rfl⟩
  · simp
  · simp

/-- A rational power of a natural exponent is a natural power. -/
theorem two_zpow_natCast (exponent : Nat) : (2 : ℚ) ^ (exponent : Int) = ((2 ^ exponent : Nat) : ℚ) := by
  simp

/-- The logarithm of a number between two powers. -/
theorem log_eq {value : ℚ} {exponent : Int} (hle : (2 : ℚ) ^ exponent ≤ value)
    (hlt : value < (2 : ℚ) ^ (exponent + 1)) : Int.log 2 value = exponent := by
  have hpos : 0 < value := lt_of_lt_of_le (by positivity) hle
  refine le_antisymm (Int.lt_add_one_iff.mp ?_) ?_
  · exact (Int.lt_zpow_iff_log_lt one_lt_two hpos).mp (by exact_mod_cast hlt)
  · exact (Int.zpow_le_iff_le_log one_lt_two hpos).mp (by exact_mod_cast hle)

/-- A number reaches the power of two of its last bit. -/
theorem two_zpow_log2_le {number : Nat} (h : 0 < number) : (2 : ℚ) ^ (number.log2 : Int) ≤ number := by
  rw [two_zpow_natCast]
  exact_mod_cast Nat.log2_self_le h.ne'

/-- A number is below the next power of two. -/
theorem lt_two_zpow_log2 (number : Nat) : (number : ℚ) < (2 : ℚ) ^ ((number.log2 : Int) + 1) := by
  have hlt : number < 2 ^ (number.log2 + 1) := Nat.lt_log2_self
  exact_mod_cast hlt

/-- The difference of two logarithms says what a quotient is up to a factor of two. -/
theorem quotient_bounds {numerator denominator : Nat} (hnumerator : 0 < numerator)
    (hdenominator : 0 < denominator) :
    let estimate : Int := (numerator.log2 : Int) - (denominator.log2 : Int)
    (2 : ℚ) ^ (estimate - 1) ≤ numerator / denominator ∧
      (numerator : ℚ) / denominator < (2 : ℚ) ^ (estimate + 1) := by
  intro estimate
  have hd : (0 : ℚ) < denominator := Nat.cast_pos.mpr hdenominator
  have hbelow : estimate - 1 + (denominator.log2 + 1) = (numerator.log2 : Int) := by
    omega
  have habove : estimate + 1 + denominator.log2 = (numerator.log2 : Int) + 1 := by
    omega
  constructor
  · rw [le_div_iff₀ hd]
    calc (2 : ℚ) ^ (estimate - 1) * denominator
        ≤ (2 : ℚ) ^ (estimate - 1) * (2 : ℚ) ^ ((denominator.log2 : Int) + 1) :=
          mul_le_mul_of_nonneg_left (lt_two_zpow_log2 denominator).le (by positivity)
      _ = (2 : ℚ) ^ (numerator.log2 : Int) := by
          rw [← zpow_add₀ two_ne_zero, hbelow]
      _ ≤ numerator := two_zpow_log2_le hnumerator
  · rw [div_lt_iff₀ hd]
    calc (numerator : ℚ)
        < (2 : ℚ) ^ ((numerator.log2 : Int) + 1) := lt_two_zpow_log2 numerator
      _ = (2 : ℚ) ^ (estimate + 1) * (2 : ℚ) ^ (denominator.log2 : Int) := by
          rw [← zpow_add₀ two_ne_zero, habove]
      _ ≤ (2 : ℚ) ^ (estimate + 1) * denominator :=
          mul_le_mul_of_nonneg_left (two_zpow_log2_le hdenominator) (by positivity)

/-- The greatest power of two that a quotient reaches is its logarithm. -/
theorem floorLog2_eq_log {numerator denominator : Nat} (hnumerator : 0 < numerator)
    (hdenominator : 0 < denominator) :
    floorLog2 numerator denominator = Int.log 2 ((numerator : ℚ) / denominator) := by
  have hd : (0 : ℚ) < denominator := Nat.cast_pos.mpr hdenominator
  obtain ⟨hbelow, habove⟩ := quotient_bounds hnumerator hdenominator
  let estimate : Int := (numerator.log2 : Int) - (denominator.log2 : Int)
  have hless : numerator * 2 ^ (-estimate).toNat < denominator * 2 ^ estimate.toNat ↔
      (numerator : ℚ) / denominator < (2 : ℚ) ^ estimate := by
    rw [two_zpow_eq_div, div_lt_div_iff₀ hd (by positivity), mul_comm denominator]
    exact_mod_cast Iff.rfl
  show (if numerator * 2 ^ (-estimate).toNat < denominator * 2 ^ estimate.toNat then estimate - 1
    else estimate) = _
  by_cases hlow : numerator * 2 ^ (-estimate).toNat < denominator * 2 ^ estimate.toNat
  · rw [if_pos hlow, log_eq hbelow]
    rw [Int.sub_add_cancel]
    exact hless.mp hlow
  · rw [if_neg hlow, log_eq (not_lt.mp (mt hless.mpr hlow)) habove]

/-- A quotient that is a multiple of a power of two is one after scaling by that power. -/
theorem scaled_eq {numerator denominator mantissa : Nat} {exponent : Int} (hdenominator : 0 < denominator)
    (h : (numerator : ℚ) / denominator = mantissa * (2 : ℚ) ^ exponent) :
    numerator * 2 ^ (-exponent).toNat = mantissa * (denominator * 2 ^ exponent.toNat) := by
  have hd : (0 : ℚ) < denominator := Nat.cast_pos.mpr hdenominator
  rw [two_zpow_eq_div, mul_div_assoc', div_eq_div_iff hd.ne' (by positivity)] at h
  rw [Nat.mul_comm denominator, ← Nat.mul_assoc]
  exact_mod_cast h

/-- A quotient without a remainder is rounded to itself. -/
theorem roundQuotient_mul (quotient : Nat) {denominator : Nat} (h : 0 < denominator) :
    roundQuotient (quotient * denominator) denominator = quotient := by
  unfold roundQuotient
  rw [Nat.mul_div_cancel _ h, Nat.mul_mod_left]
  exact if_pos h

namespace Format

/-- A mantissa and the distance of its exponent from the least one, as a pattern has them: the leading bit is
set, unless the exponent is the least one. -/
structure Canonical (format : Format) (mantissa distance : Nat) : Prop where
  lt : mantissa < 2 ^ (format.fractionBits + 1)
  full : distance = 0 ∨ 2 ^ format.fractionBits ≤ mantissa

/-- The pattern of a mantissa and a distance. -/
def pack (format : Format) (mantissa distance : Nat) : Nat :=
  distance * 2 ^ format.fractionBits + mantissa

/-- The value of a mantissa and a distance. -/
def value (format : Format) (mantissa distance : Nat) : ℚ :=
  mantissa * (2 : ℚ) ^ (format.leastExponent + distance)

variable {format : Format} {mantissa distance : Nat}

/-- A mantissa that is not full is doubled until it is, or the exponent is the least. -/
theorem exists_canonical (h : mantissa < 2 ^ (format.fractionBits + 1)) (distance : Nat) :
    ∃ full left, format.Canonical full left ∧
      format.value full left = format.value mantissa distance := by
  induction distance generalizing mantissa with
  | zero => exact ⟨mantissa, 0, ⟨h, .inl rfl⟩, rfl⟩
  | succ distance ih =>
      by_cases hfull : 2 ^ format.fractionBits ≤ mantissa
      · exact ⟨mantissa, distance + 1, ⟨h, .inr hfull⟩, rfl⟩
      · have hdouble : 2 * mantissa < 2 ^ (format.fractionBits + 1) := by
          rw [Nat.pow_succ]
          omega
        obtain ⟨full, left, hcanonical, hvalue⟩ := ih hdouble
        refine ⟨full, left, hcanonical, hvalue.trans ?_⟩
        unfold value
        rw [Nat.cast_add, ← add_assoc, Nat.cast_one, zpow_add_one₀ two_ne_zero, Nat.cast_mul]
        ring

/-- A mantissa with few bits has a small value. -/
theorem value_lt (format : Format) (distance : Nat) {bits : Nat} (h : mantissa < 2 ^ bits) :
    format.value mantissa distance < 2 ^ (format.leastExponent + distance + bits) := by
  unfold value
  rw [zpow_add₀ two_ne_zero (format.leastExponent + distance), two_zpow_natCast bits, mul_comm]
  gcongr

/-- A mantissa with many bits has a great value. -/
theorem le_value (format : Format) (distance : Nat) {bits : Nat} (h : 2 ^ bits ≤ mantissa) :
    2 ^ (format.leastExponent + distance + bits) ≤ format.value mantissa distance := by
  unfold value
  rw [zpow_add₀ two_ne_zero (format.leastExponent + distance), two_zpow_natCast bits, mul_comm]
  gcongr

/-- The exponent that a value is rounded at is the one of its mantissa. -/
theorem roundingExponent_eq (h : format.Canonical mantissa distance) (hpos : 0 < mantissa) :
    max format.leastExponent (Int.log 2 (format.value mantissa distance) - format.fractionBits) =
      format.leastExponent + distance := by
  have habove := value_lt format distance h.lt
  rcases h.full with rfl | hfull
  · have hvalue : 0 < format.value mantissa 0 := by
      unfold value
      positivity
    have hlog := (Int.lt_zpow_iff_log_lt one_lt_two hvalue).mp (by exact_mod_cast habove)
    omega
  · have hlog := log_eq (le_value format distance hfull) (by
      rw [add_assoc]
      exact_mod_cast habove)
    omega

/-- What is the value of a mantissa is rounded to its pattern. -/
theorem roundMagnitude_eq (h : format.Canonical mantissa distance) {numerator denominator : Nat}
    (hdenominator : 0 < denominator)
    (hvalue : (numerator : ℚ) / denominator = format.value mantissa distance) :
    format.roundMagnitude numerator denominator =
      min (format.pack mantissa distance) format.infinity := by
  let exponent : Int := format.leastExponent + distance
  have hscaled : numerator * 2 ^ (-exponent).toNat = mantissa * (denominator * 2 ^ exponent.toNat) :=
    scaled_eq hdenominator hvalue
  have hunit : 0 < denominator * 2 ^ exponent.toNat := by positivity
  -- Zero has no logarithm, so its pattern is found apart.
  rcases Nat.eq_zero_or_pos mantissa with rfl | hpos
  · have hnumerator : numerator = 0 := by
      rw [Nat.zero_mul] at hscaled
      exact (Nat.mul_eq_zero.mp hscaled).resolve_right (Nat.two_pow_pos _).ne'
    have hdistance : distance = 0 :=
      h.full.resolve_right (Nat.not_le_of_lt (Nat.two_pow_pos _))
    subst hnumerator hdistance
    simp [roundMagnitude, pack]
  · have hnumerator : 0 < numerator :=
      Nat.pos_of_mul_pos_right (hscaled ▸ Nat.mul_pos hpos hunit)
    have hexponent :
        max format.leastExponent (floorLog2 numerator denominator - format.fractionBits) = exponent := by
      rw [floorLog2_eq_log hnumerator hdenominator, hvalue]
      exact roundingExponent_eq h hpos
    have hdistance : (exponent - format.leastExponent).toNat = distance := by
      omega
    unfold roundMagnitude
    rw [if_neg (by simpa using hnumerator.ne'), hexponent]
    dsimp only
    rw [hscaled, roundQuotient_mul _ hunit, hdistance]
    rfl

/-- The least power of two that is too great for a format. -/
def overflow (format : Format) : ℚ :=
  (2 : ℚ) ^ ((2 ^ (format.exponentBits - 1) : Nat) : Int)

/-- The exponents of a format lie evenly around zero. -/
theorem exists_half (hformat : 2 ≤ format.exponentBits) :
    ∃ half : Nat, 2 ≤ half ∧ 2 ^ format.exponentBits = 2 * half ∧
      format.leastExponent = 2 - (half : Int) - format.fractionBits ∧
      format.overflow = (2 : ℚ) ^ (half : Int) := by
  obtain ⟨bits, hbits⟩ : ∃ bits, format.exponentBits = bits + 2 := Nat.exists_eq_add_of_le' hformat
  refine ⟨2 ^ (bits + 1), ?_, ?_, ?_, ?_⟩
  · rw [Nat.pow_succ']
    exact Nat.le_mul_of_pos_right 2 (Nat.two_pow_pos _)
  · rw [hbits, Nat.pow_succ']
  · unfold leastExponent
    rw [hbits]
    push_cast
    rfl
  · unfold overflow
    rw [hbits]
    rfl

/-- A value has a finite pattern exactly when it is below the overflow. -/
theorem pack_lt_infinity_iff (hformat : 2 ≤ format.exponentBits)
    (h : format.Canonical mantissa distance) :
    format.pack mantissa distance < format.infinity ↔
      format.value mantissa distance < format.overflow := by
  obtain ⟨half, hhalf, hfields, hleast, hoverflow⟩ := exists_half hformat
  have hlt := h.lt
  have hdouble : 2 ^ (format.fractionBits + 1) = 2 * 2 ^ format.fractionBits := Nat.pow_succ'
  unfold infinity pack
  rw [hoverflow, hfields]
  -- Only the distance decides: the mantissa is full where the exponent field may be the last.
  by_cases hfield : distance + 2 < 2 * half
  · refine iff_of_true ?_ ?_
    · calc distance * 2 ^ format.fractionBits + mantissa
          < (distance + 2) * 2 ^ format.fractionBits := by
            rw [Nat.add_mul]
            omega
        _ ≤ _ := Nat.mul_le_mul_right _ (by omega)
    · refine lt_of_lt_of_le (value_lt format distance hlt) (zpow_le_zpow_right₀ one_le_two ?_)
      omega
  · have hfull : 2 ^ format.fractionBits ≤ mantissa := h.full.resolve_left (by omega)
    refine iff_of_false (not_lt.mpr ?_) (not_lt.mpr ?_)
    · calc _ ≤ (distance + 1) * 2 ^ format.fractionBits := Nat.mul_le_mul_right _ (by omega)
        _ ≤ distance * 2 ^ format.fractionBits + mantissa := by
            rw [Nat.add_mul]
            omega
    · refine le_trans (zpow_le_zpow_right₀ one_le_two ?_) (le_value format distance hfull)
      omega

/-- Infinity is below the sign. -/
theorem infinity_lt_signWeight (format : Format) : format.infinity < format.signWeight := by
  unfold infinity signWeight
  rw [Nat.add_comm, Nat.pow_add]
  exact Nat.mul_lt_mul_of_pos_right (Nat.sub_lt (Nat.two_pow_pos _) Nat.one_pos) (Nat.two_pow_pos _)

/-- The sign and the magnitude of a pattern that is put together. -/
theorem sign_magnitude (negative : Bool) {magnitude : Nat} (h : magnitude < format.signWeight) :
    let bits := (if negative then format.signWeight else 0) + magnitude
    (bits / format.signWeight % 2 == 1) = negative ∧ bits % format.signWeight = magnitude := by
  have hpos : 0 < format.signWeight := Nat.two_pow_pos _
  cases negative with
  | false => simp [Nat.div_eq_of_lt h, Nat.mod_eq_of_lt h]
  | true => simp [Nat.div_eq_of_lt h, Nat.mod_eq_of_lt h, Nat.add_div_left _ hpos]

/-- What a finite pattern denotes. -/
theorem denote_pack (negative : Bool) (h : format.Canonical mantissa distance)
    (hfinite : format.pack mantissa distance < format.infinity) :
    format.denote ((if negative then format.signWeight else 0) + format.pack mantissa distance) =
      .finite negative mantissa (format.leastExponent + distance) := by
  obtain ⟨hsign, hmagnitude⟩ := sign_magnitude negative
    (hfinite.trans format.infinity_lt_signWeight)
  have hdouble : 2 ^ (format.fractionBits + 1) = 2 * 2 ^ format.fractionBits := Nat.pow_succ'
  have hpos : 0 < 2 ^ format.fractionBits := Nat.two_pow_pos _
  have hlt := h.lt
  unfold denote
  dsimp only
  rw [hsign, hmagnitude, if_neg (by simpa using hfinite.ne), if_neg hfinite.not_gt]
  -- A full mantissa carries into the exponent field; one that is not full is subnormal.
  by_cases hfull : 2 ^ format.fractionBits ≤ mantissa
  · obtain ⟨fraction, rfl⟩ := Nat.exists_eq_add_of_le' hfull
    have hfraction : fraction < 2 ^ format.fractionBits := by omega
    have hpack : format.pack (fraction + 2 ^ format.fractionBits) distance =
        fraction + (distance + 1) * 2 ^ format.fractionBits := by
      unfold pack
      rw [Nat.add_mul]
      omega
    rw [hpack, Nat.add_mul_div_right _ _ hpos, Nat.add_mul_mod_self_right,
      Nat.div_eq_of_lt hfraction, Nat.mod_eq_of_lt hfraction]
    simp
  · obtain rfl : distance = 0 := h.full.resolve_right hfull
    have hpack : format.pack mantissa 0 = mantissa := by
      simp [pack]
    rw [hpack, Nat.div_eq_of_lt (not_le.mp hfull), Nat.mod_eq_of_lt (not_le.mp hfull)]
    simp

/-- What the patterns of infinity denote. -/
theorem denote_infinity (format : Format) (negative : Bool) :
    format.denote ((if negative then format.signWeight else 0) + format.infinity) =
      .infinite negative := by
  obtain ⟨hsign, hmagnitude⟩ := sign_magnitude negative format.infinity_lt_signWeight
  unfold denote
  dsimp only
  rw [hsign, hmagnitude, if_pos (beq_self_eq_true _)]

/-- A number that a format has an exact magnitude for, unless it is too great. -/
def Holds (format : Format) (number : ℚ) : Prop :=
  ∃ mantissa distance, mantissa < 2 ^ (format.fractionBits + 1) ∧
    |number| = format.value mantissa distance

/-- A number, or the infinity of its sign where it is too great. -/
def saturated (format : Format) (number : ℚ) : Extended :=
  if |number| < format.overflow then (number : ℚ) else if number < 0 then ⊥ else ⊤

/-- A number whose magnitude a format has is rounded to itself. -/
theorem number?_round (hformat : 2 ≤ format.exponentBits) {negative : Bool}
    {numerator denominator : Nat} (hdenominator : 0 < denominator)
    (h : format.Holds (signed negative (numerator / denominator))) :
    (format.denote (format.round negative numerator denominator)).number? =
      some (format.saturated (signed negative (numerator / denominator))) := by
  obtain ⟨mantissa, distance, hlt, hmagnitude⟩ := h
  obtain ⟨full, left, hcanonical, hvalue⟩ := exists_canonical hlt distance
  rw [abs_signed negative (by positivity)] at hmagnitude
  have hround := roundMagnitude_eq hcanonical hdenominator (hmagnitude.trans hvalue.symm)
  have hoverflow := pack_lt_infinity_iff hformat hcanonical
  rw [hvalue, ← hmagnitude] at hoverflow
  unfold round saturated
  rw [hround, abs_signed negative (by positivity)]
  by_cases hfinite : format.pack full left < format.infinity
  · rw [Nat.min_eq_left hfinite.le, denote_pack negative hcanonical hfinite,
      if_pos (hoverflow.mp hfinite), hmagnitude, ← hvalue]
    rfl
  · have hpos : (0 : ℚ) < numerator / denominator :=
      lt_of_lt_of_le (by unfold overflow; positivity) (not_lt.mp (mt hoverflow.mpr hfinite))
    rw [Nat.min_eq_right (not_lt.mp hfinite), denote_infinity, if_neg (mt hoverflow.mpr hfinite)]
    cases negative with
    | false => simp [ Denotation.number?, signed, hpos.le]
    | true => simp [ Denotation.number?, signed, hpos]

/-- A pattern denotes a mantissa within the width and an exponent within the range of its format. -/
theorem bounds_of_denote {bits : Nat} {negative : Bool} {exponent : Int}
    (h : format.denote bits = .finite negative mantissa exponent) :
    mantissa < 2 ^ (format.fractionBits + 1) ∧ format.leastExponent ≤ exponent := by
  have hfraction := Nat.mod_lt (bits % format.signWeight) (Nat.two_pow_pos format.fractionBits)
  have hdouble : 2 ^ (format.fractionBits + 1) = 2 * 2 ^ format.fractionBits := Nat.pow_succ'
  unfold denote at h
  dsimp only at h
  split at h
  · cases h
  · split at h
    · cases h
    · split at h
      · cases h
        omega
      · rename_i hfield
        have hone : 0 < bits % format.signWeight / 2 ^ format.fractionBits :=
          Nat.pos_of_ne_zero (by simpa using hfield)
        cases h
        exact ⟨by omega, Int.le_add_of_nonneg_right (Int.sub_nonneg_of_le (Int.ofNat_le.mpr hone))⟩

/-- A number that a pattern denotes has an exact magnitude. -/
theorem holds_of_denote {bits : Nat} {number : ℚ}
    (h : (format.denote bits).number? = some (number : Extended)) : format.Holds number := by
  obtain ⟨negative, mantissa, exponent, hdenote, rfl⟩ := Denotation.eq_finite h
  obtain ⟨hlt, hle⟩ := bounds_of_denote hdenote
  refine ⟨mantissa, (exponent - format.leastExponent).toNat, hlt, ?_⟩
  rw [abs_signed negative (by positivity)]
  unfold value
  congr 2
  omega

/-- A magnitude that is shifted to the left stays exact. -/
theorem Holds.mul_two_pow {number : ℚ} (h : format.Holds number) (shift : Nat) :
    format.Holds (number * (2 : ℚ) ^ (shift : Int)) := by
  obtain ⟨mantissa, distance, hlt, hvalue⟩ := h
  refine ⟨mantissa, distance + shift, hlt, ?_⟩
  rw [abs_mul, hvalue, abs_of_pos (by positivity)]
  unfold value
  rw [mul_assoc, ← zpow_add₀ two_ne_zero, add_assoc, Nat.cast_add]

/-- A product with a power of two is exact where the format has its magnitude. -/
theorem number?_scale (hformat : 2 ≤ format.exponentBits) {bits : Nat} {number : ℚ}
    (h : (format.denote bits).number? = some (number : Extended)) {shift : Int}
    (hproduct : format.Holds (number * (2 : ℚ) ^ shift)) :
    (format.denote (format.scale bits shift)).number? =
      some (format.saturated (number * (2 : ℚ) ^ shift)) := by
  obtain ⟨negative, mantissa, exponent, hdenote, rfl⟩ := Denotation.eq_finite h
  have hquotient : signed negative (mantissa * (2 : ℚ) ^ exponent) * (2 : ℚ) ^ shift =
      signed negative (((mantissa * 2 ^ (exponent + shift).toNat : Nat) : ℚ) /
        ((2 ^ (-(exponent + shift)).toNat : Nat) : ℚ)) := by
    rw [← signed_mul, mul_assoc, ← zpow_add₀ two_ne_zero, two_zpow_eq_div, Nat.cast_mul, mul_div_assoc]
  unfold scale
  rw [hdenote]
  dsimp only
  rw [hquotient] at hproduct ⊢
  exact number?_round hformat (Nat.two_pow_pos _) hproduct

/-- An infinity times a power of two is that infinity. -/
theorem denote_scale_infinite {bits : Nat} {negative : Bool}
    (h : format.denote bits = .infinite negative) (shift : Int) :
    format.denote (format.scale bits shift) = .infinite negative := by
  unfold scale
  rw [h]
  exact denote_infinity format negative

/-- Rounding gives a pattern of the format. -/
theorem round_lt (format : Format) (negative : Bool) (numerator denominator : Nat) :
    format.round negative numerator denominator < 2 * format.signWeight := by
  have hinfinity := format.infinity_lt_signWeight
  have hmagnitude : format.roundMagnitude numerator denominator ≤ format.infinity := by
    unfold roundMagnitude
    split
    · exact Nat.zero_le _
    · exact Nat.min_le_right _ _
  unfold round
  cases negative <;> simp only [if_true, Bool.false_eq_true, if_false] <;> omega

/-- A product is a pattern of the format. -/
theorem scale_lt (format : Format) (bits : Nat) (shift : Int) :
    format.scale bits shift < 2 * format.signWeight := by
  have hinfinity := format.infinity_lt_signWeight
  unfold scale
  split
  · exact round_lt format _ _ _
  · split <;> omega
  · have hquiet : 2 ^ (format.fractionBits - 1) ≤ format.signWeight :=
      Nat.pow_le_pow_right Nat.two_pos (by omega)
    unfold quietNotANumber
    omega

end Format

end StageArchive.Binary
