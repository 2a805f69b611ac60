import CountedHeap.Proofs.Schedule

/-!
Double-precision numbers as fractions. A quotient whose exact value has a significand of 53 bits is
not rounded; and what passes for a probability are the numbers from zero to one, with either sign of
zero.
-/

namespace CountedHeap

theorem roundHalfEven_mul (den quotient : Nat) (positive : 0 < den) :
    roundHalfEven (den * quotient) den = quotient := by
  simp [roundHalfEven, Nat.mul_div_cancel_left quotient positive, positive]

namespace Binary64

theorem one_eq : one = 2 ^ 1074 := by decide +kernel

theorem leading_eq : leading = 2 ^ 52 := by decide

/-- A significand of 53 bits before the exponent. -/
def Representable (n : Nat) : Prop := ∃ significand exponent, significand < 2 ^ 53 ∧ n = significand * 2 ^ exponent

/-! Bits of a magnitude -/

theorem magnitudeBits_ofNat (magnitude : Nat) (finite : magnitude < infinityBits.toNat) :
    magnitudeBits ⟨magnitude.toUInt64⟩ = magnitude := by
  have top : infinityBits.toNat = 0x7ff0000000000000 := rfl
  have width : signBit.toNat = 0x8000000000000000 := rfl
  have same : magnitude.toUInt64.toNat = magnitude := by
    rw [Nat.toUInt64, UInt64.toNat_ofNat']
    omega
  rw [magnitudeBits, same, width]
  omega

theorem units_subnormal (magnitude : Nat) (below : magnitude < leading) :
    units ⟨magnitude.toUInt64⟩ = magnitude := by
  have bits : magnitudeBits ⟨magnitude.toUInt64⟩ = magnitude :=
    magnitudeBits_ofNat magnitude (Nat.lt_trans below (by decide))
  rw [units, bits, Nat.div_eq_of_lt below, if_pos rfl, Nat.mod_eq_of_lt below]

theorem units_normal (shift significand : Nat) (least : leading ≤ significand)
    (most : significand < 2 * leading) (finite : shift * leading + significand < infinityBits.toNat) :
    units ⟨(shift * leading + significand).toUInt64⟩ = significand * 2 ^ shift := by
  have positive : 0 < leading := by decide
  have row : shift * leading + significand = (significand - leading) + leading * (shift + 1) := by
    rw [Nat.mul_add, Nat.mul_one, Nat.mul_comm leading]
    omega
  have quotient : (shift * leading + significand) / leading = shift + 1 := by
    rw [row, Nat.add_mul_div_left _ _ positive, Nat.div_eq_of_lt (by omega), Nat.zero_add]
  have fraction : (shift * leading + significand) % leading = significand - leading := by
    rw [row, Nat.add_mul_mod_self_left, Nat.mod_eq_of_lt (by omega)]
  rw [units, magnitudeBits_ofNat _ finite, quotient, fraction, if_neg (Nat.succ_ne_zero shift),
    Nat.add_sub_cancel, Nat.add_sub_cancel' least, Nat.shiftLeft_eq]

/-! Exact quotients -/

theorem log2_scaled (significand exponent bits : Nat) (small : significand < 2 ^ bits)
    (positive : 0 < bits) : (significand * 2 ^ exponent).log2 < bits + exponent := by
  rcases Nat.eq_zero_or_pos significand with rfl | nonzero
  · rw [Nat.zero_mul, Nat.log2_zero]
    omega
  · rw [Nat.log2_lt (Nat.mul_pos nonzero (Nat.two_pow_pos exponent)).ne', Nat.pow_add]
    exact Nat.mul_lt_mul_of_pos_right small (Nat.two_pow_pos exponent)

theorem Representable.normalised {n : Nat} (fits : Representable n) :
    n = n / 2 ^ (n.log2 - 52) * 2 ^ (n.log2 - 52) ∧ n / 2 ^ (n.log2 - 52) < 2 * leading ∧
      (0 < n.log2 - 52 → leading ≤ n / 2 ^ (n.log2 - 52)) := by
  have above : n < 2 ^ (n.log2 + 1) := Nat.lt_log2_self
  generalize isShift : n.log2 - 52 = shift
  have power : 0 < 2 ^ shift := Nat.two_pow_pos shift
  refine ⟨?_, ?_, fun normal => ?_⟩
  · -- A number with 53 bits before the exponent has the normal exponent at most.
    obtain ⟨significand, exponent, small, rfl⟩ := fits
    have size := log2_scaled significand exponent 53 small (by decide)
    have divides : 2 ^ shift ∣ significand * 2 ^ exponent :=
      Nat.dvd_mul_left_of_dvd (Nat.pow_dvd_pow 2 (by omega)) significand
    exact (Nat.div_mul_cancel divides).symm
  · rw [Nat.div_lt_iff_lt_mul power, leading_eq, ← Nat.pow_succ', ← Nat.pow_add]
    exact Nat.lt_of_lt_of_le above (Nat.pow_le_pow_right (by decide) (by omega))
  · have nonzero : n ≠ 0 := by
      rintro rfl
      simp at isShift
      omega
    rw [Nat.le_div_iff_mul_le power, leading_eq, ← Nat.pow_add]
    exact Nat.le_trans (Nat.pow_le_pow_right (by decide) (by omega)) (Nat.log2_self_le nonzero)

/-- A quotient that is representable is not rounded. -/
theorem units_ofRatio (num den n : Nat) (positive : 0 < den) (multiple : num * one = den * n)
    (fits : Representable n) (finite : n.log2 < 2098) : (ofRatio num den).units = n := by
  obtain ⟨whole, most, least⟩ := fits.normalised
  have quotient : num * one / den = n := by rw [multiple, Nat.mul_div_cancel_left n positive]
  have rounded : roundHalfEven (num * one) (den <<< (n.log2 - 52)) = n / 2 ^ (n.log2 - 52) := by
    have scaled : num * one = den <<< (n.log2 - 52) * (n / 2 ^ (n.log2 - 52)) := by
      rw [multiple, Nat.shiftLeft_eq, Nat.mul_assoc, Nat.mul_comm (2 ^ (n.log2 - 52)), ← whole]
    rw [scaled]
    exact roundHalfEven_mul _ _ (by rw [Nat.shiftLeft_eq]; exact Nat.mul_pos positive (Nat.two_pow_pos _))
  have top : infinityBits.toNat = 2047 * leading := by decide
  have below : (n.log2 - 52) * leading + n / 2 ^ (n.log2 - 52) < infinityBits.toNat := by
    have steps : (n.log2 - 52) * leading ≤ 2045 * leading := Nat.mul_le_mul_right leading (by omega)
    rw [top]
    omega
  simp only [ofRatio, quotient, rounded, if_pos below]
  by_cases normal : leading ≤ n / 2 ^ (n.log2 - 52)
  · rw [units_normal _ _ normal most below, ← whole]
  · have flat : n.log2 - 52 = 0 := Nat.eq_zero_of_not_pos fun up => normal (least up)
    rw [flat] at normal ⊢
    simp only [Nat.pow_zero, Nat.div_one, Nat.zero_mul, Nat.zero_add] at normal ⊢
    exact units_subnormal n (Nat.not_le.mp normal)

theorem units_ofNat (n : Nat) (small : n ≤ 2 ^ 53) : (ofNat n).units = n * one := by
  have fits : Representable (n * one) := by
    rw [one_eq]
    rcases Nat.lt_or_eq_of_le small with below | rfl
    · exact ⟨n, 1074, below, rfl⟩
    · exact ⟨1, 1127, by decide, by decide +kernel⟩
  have size : (n * one).log2 < 54 + 1074 := by
    rw [one_eq]
    exact log2_scaled n 1074 54 (by omega) (by decide)
  exact units_ofRatio n 1 (n * one) Nat.one_pos (Nat.one_mul _).symm fits (by omega)

/-- A fraction of `2 ^ 53` is a number: neither count nor quotient is rounded. -/
theorem value_ofCounts (k : Nat) (small : k < 2 ^ 53) :
    (ofCounts k (2 ^ 53)).value = (k : ℚ) / 2 ^ 53 := by
  have positive : 0 < 2 ^ 53 * one := by decide +kernel
  have whole : one = 2 ^ 53 * 2 ^ 1021 := by decide +kernel
  have fits : Representable (k * 2 ^ 1021) := ⟨k, 1021, small, rfl⟩
  have size := log2_scaled k 1021 53 small (by decide)
  generalize isUnit : 2 ^ 1021 = unit at whole fits size
  have multiple : k * one * one = 2 ^ 53 * one * (k * unit) := by
    rw [whole]
    ring
  have units : (ofCounts k (2 ^ 53)).units = k * unit := by
    rw [ofCounts, if_neg (by decide), units_ofNat k small.le, units_ofNat (2 ^ 53) le_rfl]
    exact units_ofRatio _ _ _ positive multiple fits (by omega)
  have nonzero : (unit : ℚ) ≠ 0 := by
    rw [← isUnit]
    positivity
  rw [value, units, whole]
  push_cast
  exact mul_div_mul_right _ _ nonzero

/-! Probabilities -/

def signed (x : Binary64) : ℚ := if x.negative then -x.value else x.value

theorem toNat_bits (x : Binary64) :
    x.bits.toNat = x.negative.toNat * 2 ^ 63 + x.magnitudeBits := by
  have bound : x.bits.toNat < 2 ^ 64 := x.bits.toNat_lt
  have width : signBit.toNat = 2 ^ 63 := rfl
  have top : (x.bits &&& signBit).toNat = 2 ^ 63 * (x.bits.toNat / 2 ^ 63 % 2) := by
    rw [UInt64.toNat_and, width, Nat.and_two_pow, Nat.testBit_eq_decide_div_mod_eq]
    rcases Nat.mod_two_eq_zero_or_one (x.bits.toNat / 2 ^ 63) with even | odd
    · rw [even]
      rfl
    · rw [odd]
      rfl
  have sign : x.negative = true ↔ x.bits.toNat / 2 ^ 63 % 2 = 1 := by
    rw [negative, bne_iff_ne, ne_eq, ← UInt64.toNat_inj, top, UInt64.toNat_zero]
    omega
  rw [magnitudeBits, width]
  cases negative : x.negative with
  | false =>
      simp only [negative, Bool.false_eq_true, false_iff] at sign
      simp only [Bool.toNat_false]
      omega
  | true =>
      have signed := sign.mp negative
      simp only [Bool.toNat_true]
      omega

/-- A significand with an exponent is as far above or below a power of two as exponent and fraction
are in a row. -/
theorem scaled_le_iff (lead fraction exponent top : Nat) (small : fraction < lead) :
    (lead + fraction) * 2 ^ exponent ≤ lead * 2 ^ top ↔ lead * exponent + fraction ≤ lead * top := by
  rcases Nat.lt_trichotomy exponent top with below | rfl | above
  · have twice : (lead + fraction) * 2 ^ exponent ≤ lead * 2 ^ (exponent + 1) := by
      rw [Nat.pow_succ', ← Nat.mul_assoc]
      exact Nat.mul_le_mul_right _ (by omega)
    have power : lead * 2 ^ (exponent + 1) ≤ lead * 2 ^ top :=
      Nat.mul_le_mul_left lead (Nat.pow_le_pow_right (by decide) below)
    have row : lead * (exponent + 1) ≤ lead * top := Nat.mul_le_mul_left lead below
    rw [Nat.mul_succ] at row
    exact iff_of_true (twice.trans power) (by omega)
  · rw [Nat.mul_le_mul_right_iff (Nat.two_pow_pos exponent)]
    omega
  · have power : lead * 2 ^ top < (lead + fraction) * 2 ^ exponent :=
      Nat.mul_lt_mul_of_le_of_lt (Nat.le_add_right lead fraction)
        (Nat.pow_lt_pow_right (by decide) above) (by omega)
    have row : lead * (top + 1) ≤ lead * exponent := Nat.mul_le_mul_left lead above
    rw [Nat.mul_succ] at row
    exact iff_of_false (Nat.not_le.mpr power) (by omega)

theorem units_le_one_iff (x : Binary64) : x.units ≤ one ↔ x.magnitudeBits ≤ leading * 1023 := by
  have whole : one = leading * 2 ^ 1022 := by decide +kernel
  have parts := Nat.div_add_mod x.magnitudeBits leading
  have small : x.magnitudeBits % leading < leading := Nat.mod_lt _ (by decide)
  rw [units, whole]
  generalize x.magnitudeBits / leading = exponent at parts
  generalize x.magnitudeBits % leading = fraction at parts small
  cases exponent with
  | zero =>
      have tiny : leading ≤ leading * 2 ^ 1022 := by decide +kernel
      exact iff_of_true (small.le.trans tiny) (by omega)
  | succ exponent =>
      rw [if_neg (Nat.succ_ne_zero exponent), Nat.add_sub_cancel, Nat.shiftLeft_eq,
        scaled_le_iff leading fraction exponent 1022 small]
      rw [Nat.mul_succ] at parts
      omega

theorem units_eq_zero_iff (x : Binary64) : x.units = 0 ↔ x.magnitudeBits = 0 := by
  have positive : 0 < leading := by decide
  have parts := Nat.div_add_mod x.magnitudeBits leading
  rw [units]
  generalize x.magnitudeBits / leading = exponent at parts
  generalize x.magnitudeBits % leading = fraction at parts
  cases exponent with
  | zero =>
      rw [if_pos rfl, ← parts]
      omega
  | succ exponent =>
      have nonzero : (leading + fraction) * 2 ^ exponent ≠ 0 :=
        Nat.mul_ne_zero (by omega) (Nat.two_pow_pos exponent).ne'
      rw [if_neg (Nat.succ_ne_zero exponent), Nat.add_sub_cancel, Nat.shiftLeft_eq, ← parts, Nat.mul_succ]
      exact iff_of_false nonzero (by omega)

theorem value_le_one_iff (x : Binary64) : x.value ≤ 1 ↔ x.magnitudeBits ≤ leading * 1023 := by
  rw [value, div_le_one one_pos, Nat.cast_le, units_le_one_iff]

theorem value_nonneg (x : Binary64) : 0 ≤ x.value := div_nonneg (Nat.cast_nonneg _) one_pos.le

theorem value_eq_zero_iff (x : Binary64) : x.value = 0 ↔ x.magnitudeBits = 0 := by
  rw [value, div_eq_zero_iff, or_iff_left one_pos.ne', Nat.cast_eq_zero, units_eq_zero_iff]

/-- What passes for a probability is a number from zero to one. -/
theorem inUnitInterval_iff (x : Binary64) : x.inUnitInterval = true ↔
    x.isNaN = false ∧ x.isInfinite = false ∧ 0 ≤ x.signed ∧ x.signed ≤ 1 := by
  have bits := x.toNat_bits
  have top : (ofNat 1).bits.toNat = leading * 1023 := by decide +kernel
  have infinite : infinityBits.toNat = leading * 2047 := by decide
  have width : leading * 2048 = 2 ^ 63 := by decide
  have bound : x.magnitudeBits < 2 ^ 63 := Nat.mod_lt _ (by decide)
  have whole : x.inUnitInterval = true ↔
      x.bits.toNat = 2 ^ 63 ∨ x.bits.toNat ≤ leading * 1023 := by
    rw [inUnitInterval, Bool.or_eq_true, beq_iff_eq, decide_eq_true_eq, UInt64.le_iff_toNat_le, top,
      ← UInt64.toNat_inj]
    rfl
  have finite : x.isNaN = false ∧ x.isInfinite = false ↔ x.magnitudeBits < leading * 2047 := by
    rw [isNaN, isInfinite, infinite, decide_eq_false_iff_not, beq_eq_false_iff_ne]
    omega
  rw [whole, ← and_assoc, finite, signed]
  cases sign : x.negative with
  | false =>
      have nonneg := x.value_nonneg
      rw [sign, Bool.toNat_false, Nat.zero_mul, Nat.zero_add] at bits
      simp only [Bool.false_eq_true, if_false, nonneg, true_and, value_le_one_iff, bits]
      omega
  | true =>
      rw [sign, Bool.toNat_true, Nat.one_mul] at bits
      have onlyZero : 0 ≤ -x.value ∧ -x.value ≤ 1 ↔ x.magnitudeBits = 0 := by
        rw [← value_eq_zero_iff, neg_nonneg]
        constructor
        · exact fun both => le_antisymm both.1 x.value_nonneg
        · intro zero
          simp [zero]
      rw [if_pos rfl, onlyZero, bits]
      omega

end Binary64

end CountedHeap
