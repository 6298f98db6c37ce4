import QueryPlan.Proofs.Decimal.Integers
/-!
# Integers of any magnitude as doubles

An integer from two to the 53rd on is rounded to a double whose exponent is above zero. So it stays above
all smaller ones, which are doubles themselves. Every integer becomes an integral double, and one below two to
the 53rd is read back from it.
-/
namespace QueryPlan.Double

open Float.Model (Format UnpackedFloat totalExponent)
open Float.Model.UnpackedFloat

/-! ## Rounded mantissas -/

theorem mantissa_shiftRight (x : ExtendedMantissa) (k : Nat) :
    (x >>> k).mantissa = x.mantissa / 2 ^ k := by
  induction k with
  | zero => exact (Nat.div_one _).symm
  | succ k ih =>
    show (x >>> k).mantissa / 2 = _
    rw [ih, Nat.div_div_eq_div_mul, Nat.pow_succ]

theorem roundedMantissa_bounds (x : ExtendedMantissa) :
    x.mantissa ≤ x.roundedMantissa ∧ x.roundedMantissa ≤ x.mantissa + 1 := by
  unfold ExtendedMantissa.roundedMantissa Accuracy.roundToNearestEven
  split <;> omega

/-- The 53 leading bits of a mantissa. -/
theorem leading_bits {m k : Nat} (hpos : m ≠ 0) (hlog : m.log2 = 52 + k) :
    2 ^ 52 ≤ m / 2 ^ k ∧ m / 2 ^ k < 2 ^ 53 := by
  have hself := Nat.log2_self_le hpos
  have hlt := Nat.lt_log2_self (n := m)
  rw [hlog, Nat.pow_add] at hself
  rw [hlog, show 52 + k + 1 = 53 + k by omega, Nat.pow_add] at hlt
  exact ⟨(Nat.le_div_iff_mul_le (Nat.two_pow_pos k)).mpr hself,
    (Nat.div_lt_iff_lt_mul (Nat.two_pow_pos k)).mpr hlt⟩

/-- Rounding leaves a mantissa of 53 bits, at the place of the leading bits or one above it. -/
theorem roundWithAccuracy_normal {m k : Nat} {e : Int} (hpos : m ≠ 0) (hlog : m.log2 = 52 + k)
    (hlow : -1074 ≤ k + e) (hhigh : k + e < 971) (s : Sign) :
    ∃ m' e', ∃ h : IsNormal m' e', k + e ≤ e' ∧
      roundWithAccuracy Format.binary64 s m e .exact = .finite s m' e' h.pos := by
  have htarget : Format.binary64.targetExponent (totalExponent m e) = k + e := by
    rw [totalExponent, hlog, Format.targetExponent]
    show Max.max (((52 + k : Nat) : Int) + 1 + e - 53) (-1074) = _
    omega
  have hshift : shiftToTargetExponent Format.binary64 m e .exact =
      ((⟨m, false, false⟩ : ExtendedMantissa) >>> k, (k : Int) + e) := by
    rw [shiftToTargetExponent, htarget, shiftToExponent, show ((k : Int) + e - e).toNat = k by omega,
      Int.add_comm]
    rfl
  have hleading := leading_bits hpos hlog
  have hround := roundedMantissa_bounds ((⟨m, false, false⟩ : ExtendedMantissa) >>> k)
  rw [mantissa_shiftRight] at hround
  unfold roundWithAccuracy
  rw [hshift]
  dsimp only at hround ⊢
  generalize ((⟨m, false, false⟩ : ExtendedMantissa) >>> k).roundedMantissa = r at hround ⊢
  generalize m / 2 ^ k = q at hround hleading
  by_cases hr : r < 2 ^ 53
  · have hnormal : IsNormal r (k + e) := ⟨by omega, hr, by omega, by omega⟩
    have hagain := shiftToTargetExponent_exact hnormal 0
    rw [Nat.pow_zero, Nat.mul_one, Int.natCast_zero, Int.sub_zero] at hagain
    refine ⟨r, k + e, hnormal, by omega, ?_⟩
    rw [hagain]
    exact dif_neg (Nat.ne_of_gt hnormal.pos)
  · -- rounding up has carried into one more bit
    have hnormal : IsNormal (2 ^ 52) (k + e + 1) := ⟨Nat.le_refl _, by decide, by omega, by omega⟩
    have hagain := shiftToTargetExponent_exact hnormal 1
    rw [show (k : Int) + e + 1 - (1 : Nat) = k + e by omega, show 2 ^ 52 * 2 ^ 1 = r by omega] at hagain
    refine ⟨2 ^ 52, k + e + 1, hnormal, by omega, ?_⟩
    rw [hagain]
    exact dif_neg (Nat.ne_of_gt hnormal.pos)

theorem log2_mul_two_pow {n : Nat} (hpos : n ≠ 0) (k : Nat) : (n * 2 ^ k).log2 = n.log2 + k := by
  induction k with
  | zero => rw [Nat.pow_zero, Nat.mul_one, Nat.add_zero]
  | succ k ih =>
    rw [Nat.pow_succ', Nat.mul_left_comm,
      Nat.log2_two_mul (Nat.mul_ne_zero hpos (Nat.ne_of_gt (Nat.two_pow_pos k))), ih, Nat.add_assoc]

/-- Integers from two to the 53rd on are doubles of an exponent above zero. -/
theorem toModel_ofNat_large {n : Nat} (hlow : 2 ^ 53 ≤ n) (hhigh : n < 2 ^ 64) :
    ∃ m e, ∃ h : IsNormal m e, 1 ≤ e ∧
      (Float.ofNat n).toModel = .pack (.finite .positive m e h.pos) := by
  have hpos : n ≠ 0 := by omega
  have hlog : 53 ≤ n.log2 := (Nat.le_log2 hpos).mpr hlow
  have hlog' : n.log2 < 64 := (Nat.log2_lt hpos).mpr hhigh
  obtain ⟨p, hp⟩ : ∃ p, p = n * 2 ^ 53 := ⟨_, rfl⟩
  have hmodel : (Float.ofNat n).toModel =
      .pack (roundWithAccuracy Format.binary64 .positive p (-53) .exact) := by
    show (Float.ofScientific n false 0).toModel = _
    unfold Float.ofScientific
    rw [dif_neg (by omega)]
    show Float.Model.ofScientific n 0 = _
    rw [Float.Model.ofScientific, UnpackedFloat.ofScientific, dif_neg hpos, if_neg (by decide),
      if_neg (by show ¬(0 : Int) < -(2048 + n.log2); omega), if_pos (Int.le_refl 0)]
    show Float.Model.pack (roundWithAccuracy Format.binary64 .positive (n <<< 53 * 1) (-53 + 0) .exact) = _
    rw [Nat.shiftLeft_eq, Nat.mul_one, Int.add_zero, hp]
  have hpos' : p ≠ 0 := by
    rw [hp]
    exact Nat.mul_ne_zero hpos (Nat.ne_of_gt (Nat.two_pow_pos 53))
  have hlogShifted : p.log2 = 52 + (n.log2 + 1) := by
    rw [hp, log2_mul_two_pow hpos]
    omega
  obtain ⟨m, e, h, he, hround⟩ := roundWithAccuracy_normal (k := n.log2 + 1) (e := -53) hpos' hlogShifted
    (by omega) (by omega) .positive
  exact ⟨m, e, h, by omega, hmodel.trans (congrArg _ hround)⟩

/-! ## Mantissas and exponents of integers -/

/-- The mantissa and the exponent that an integer has as a double. -/
structure IsPlaced (n m : Nat) (e : Int) : Prop extends IsNormal m e where
  exact : n < 2 ^ 53 → m = scaled n ∧ e = n.log2 - 52
  large : 2 ^ 53 ≤ n → 1 ≤ e

theorem exists_isPlaced {n : Nat} (hpos : 0 < n) (hn : n < 2 ^ 64) : ∃ m e, ∃ h : IsPlaced n m e,
    (Float.ofNat n).toModel = .pack (.finite .positive m e h.pos) := by
  rcases Nat.lt_or_ge n (2 ^ 53) with hsmall | hlarge
  · refine ⟨_, _, ⟨isNormal_scaled hpos hsmall, fun _ => ⟨rfl, rfl⟩, fun hlarge => ?_⟩,
      toModel_ofNat hpos hsmall⟩
    exact absurd hsmall (Nat.not_lt.mpr hlarge)
  · obtain ⟨m, e, h, he, hmodel⟩ := toModel_ofNat_large hlarge hn
    exact ⟨m, e, ⟨h, fun hsmall => absurd hsmall (Nat.not_lt.mpr hlarge), fun _ => he⟩, hmodel⟩

/-- The bits of an integer other than zero. -/
theorem exists_bits_ofInt {i : Int} (hi : i ≠ 0) (hn : i.natAbs < 2 ^ 64) :
    ∃ m e, IsPlaced i.natAbs m e ∧ (Float.ofInt i).toBits.toNat =
      (if i < 0 then 2 ^ 63 else 0) + (e + 1075).toNat * 2 ^ 52 + (m - 2 ^ 52) := by
  obtain ⟨m, e, h, hmodel⟩ := exists_isPlaced (Int.natAbs_pos.mpr hi) hn
  refine ⟨m, e, h, ?_⟩
  cases i with
  | ofNat n =>
    show (Float.ofNat n).toModel.toBits.toNat = _
    rw [show (Float.ofNat n).toModel = _ from hmodel,
      if_neg (show ¬Int.ofNat n < 0 from Int.not_lt.mpr (Int.natCast_nonneg n)), Nat.zero_add]
    exact (toNat_pack h.toIsNormal .positive).trans (congrArg (· + _) (Nat.zero_add _))
  | negSucc n =>
    show (Float.Model.pack (Float.ofNat (n + 1)).toModel.unpack.neg).toBits.toNat = _
    rw [show (Float.ofNat (n + 1)).toModel = _ from hmodel, if_pos (Int.negSucc_lt_zero n)]
    show (UnpackedFloat.pack Format.binary64 (UnpackedFloat.unpack Format.binary64
      (UnpackedFloat.pack Format.binary64 (.finite .positive _ _ h.pos))).neg).toNat = _
    rw [unpack_pack h.toIsNormal]
    exact toNat_pack h.toIsNormal .negative

/-! ## Order -/

/-- Integers of greater magnitude than the exact ones are greater doubles than these, or less if they are
negative. -/
theorem orderKey_large {j : Int} (hlow : 2 ^ 53 ≤ j.natAbs) (hhigh : j.natAbs < 2 ^ 64) :
    if 0 ≤ j then (wholeBits exactLimit : Int) ≤ orderKey (Float.ofInt j)
      else orderKey (Float.ofInt j) ≤ -1 - (wholeBits exactLimit : Int) := by
  obtain ⟨m, e, h, hbits⟩ := exists_bits_ofInt (show j ≠ 0 by omega) hhigh
  have hbiased := h.biased
  have he := h.large hlow
  have hupper := h.high
  unfold orderKey
  rw [hbits, show wholeBits exactLimit = 1076 * 2 ^ 52 by decide +kernel, show signBit = 2 ^ 63 from rfl]
  dsimp only
  split <;> split <;> split <;> omega

theorem orderKey_bounds {i : Int} (hi : i.natAbs < exactLimit) :
    -1 - (wholeBits exactLimit : Int) < orderKey (Float.ofInt i) ∧
      orderKey (Float.ofInt i) < wholeBits exactLimit := by
  have hlt : wholeBits i.natAbs < wholeBits exactLimit := wholeBits_lt hi (Nat.le_refl _)
  rw [orderKey_ofInt (Nat.le_of_lt hi)]
  split <;> omega

/-- An integer that is exact as a double has as a double the place among all integers that it has as an
integer. -/
theorem order_ofInt64_of_lt {i : Int64} (hi : i.toInt.natAbs < exactLimit) (j : Int64) :
    order (ofInt64 i) (ofInt64 j) = compare i.toInt j.toInt := by
  rcases Nat.lt_or_ge exactLimit j.toInt.natAbs with hj | hj
  · have hlow : 2 ^ 53 ≤ j.toInt.natAbs := Nat.le_of_lt hj
    have hlt := j.toInt_lt
    have hle := j.le_toInt
    have hlarge := orderKey_large hlow (by omega)
    have hbounds := orderKey_bounds hi
    have hi' : i.toInt.natAbs < 2 ^ 53 := hi
    unfold order ofInt64
    split at hlarge
    · rw [Int.compare_eq_lt.mpr (by omega), Int.compare_eq_lt.mpr (by omega)]
    · rw [Int.compare_eq_gt.mpr (by omega), Int.compare_eq_gt.mpr (by omega)]
  · exact order_ofInt64 (Nat.le_of_lt hi) hj

/-! ## Exact values -/

theorem dyadic?_ofInt {i : Int} (hi : i ≠ 0) (hn : i.natAbs < 2 ^ 64) : ∃ m e, IsPlaced i.natAbs m e ∧
    dyadic? (Float.ofInt i) = some ⟨decide (i < 0), m, e⟩ := by
  obtain ⟨m, e, h, hbits⟩ := exists_bits_ofInt hi hn
  have hbiased := h.biased
  have hlow := h.low
  have hhigh := h.high
  refine ⟨m, e, h, ?_⟩
  have hpow : leastNormal = 2 ^ 52 := rfl
  have hsign : signBit = 2 ^ 63 := rfl
  have hnegative : (2 ^ 63 ≤ (Float.ofInt i).toBits.toNat) ↔ i < 0 := by
    rw [hbits]
    split <;> omega
  have hscale : (Float.ofInt i).toBits.toNat / 2 ^ 52 % 2048 = (e + 1075).toNat := by
    rw [hbits]
    split <;> omega
  have hfraction : (Float.ofInt i).toBits.toNat % 2 ^ 52 = m - 2 ^ 52 := by
    rw [hbits]
    split <;> omega
  unfold dyadic?
  dsimp only
  rw [hpow, hsign, hscale, hfraction, if_neg (by omega), if_neg (by omega), decide_eq_decide.mpr hnegative,
    show m - 2 ^ 52 + 2 ^ 52 = m by omega, show (((e + 1075).toNat : Int) - 1075) = e by omega]

theorem IsPlaced.isIntegral {n m : Nat} {e : Int} (h : IsPlaced n m e) (negative : Bool) :
    (⟨negative, m, e⟩ : Dyadic).isIntegral = true := by
  refine decide_eq_true ?_
  rcases Nat.lt_or_ge n (2 ^ 53) with hn | hn
  · obtain ⟨rfl, rfl⟩ := h.exact hn
    show n * 2 ^ (52 - n.log2) * 2 ^ ((n.log2 : Int) - 52).toNat % 2 ^ (-((n.log2 : Int) - 52)).toNat = 0
    rw [show (-((n.log2 : Int) - 52)).toNat = 52 - n.log2 by omega, Nat.mul_right_comm, Nat.mul_mod_left]
  · have he := h.large hn
    show m * 2 ^ e.toNat % 2 ^ (-e).toNat = 0
    rw [show (-e).toNat = 0 by omega, Nat.pow_zero, Nat.mod_one]

theorem IsPlaced.truncate {n m : Nat} {e : Int} (h : IsPlaced n m e) (hpos : 0 < n) (hn : n < 2 ^ 53)
    (negative : Bool) :
    (⟨negative, m, e⟩ : Dyadic).truncate = if negative then -(n : Int) else n := by
  have hlog : n.log2 < 53 := (Nat.log2_lt (Nat.ne_of_gt hpos)).mpr hn
  obtain ⟨rfl, rfl⟩ := h.exact hn
  have hquotient : (⟨negative, scaled n, (n.log2 : Int) - 52⟩ : Dyadic).numerator /
      (⟨negative, scaled n, (n.log2 : Int) - 52⟩ : Dyadic).denominator = n := by
    show n * 2 ^ (52 - n.log2) * 2 ^ ((n.log2 : Int) - 52).toNat / 2 ^ (-((n.log2 : Int) - 52)).toNat = n
    rw [show (-((n.log2 : Int) - 52)).toNat = 52 - n.log2 by omega,
      show ((n.log2 : Int) - 52).toNat = 0 by omega, Nat.pow_zero, Nat.mul_one,
      Nat.mul_div_cancel _ (Nat.two_pow_pos _)]
  rw [Dyadic.truncate, hquotient]

theorem natAbs_toInt_lt (i : Int64) : i.toInt.natAbs < 2 ^ 64 := by
  have hlt := i.toInt_lt
  have hle := i.le_toInt
  omega

/-- An integer as a double is its own integer part. -/
theorem rounded_ofInt64 (i : Int64) :
    floor (ofInt64 i) = ofInt64 i ∧ ceil (ofInt64 i) = ofInt64 i := by
  unfold ofInt64 floor ceil
  by_cases hi : i.toInt = 0
  · rw [hi]
    exact ⟨by decide +kernel, by decide +kernel⟩
  · obtain ⟨m, e, h, hdyadic⟩ := dyadic?_ofInt hi (natAbs_toInt_lt i)
    rw [hdyadic]
    exact ⟨if_pos (h.isIntegral _), if_pos (h.isIntegral _)⟩

theorem clampInt64_toInt (i : Int64) : clampInt64 i.toInt = i := by
  have hle := i.minValue_le_toInt
  have hge := i.toInt_le
  unfold clampInt64
  split
  · next h => exact Int64.toInt_inj.mp (Int.le_antisymm hle h)
  · split
    · next h => exact Int64.toInt_inj.mp (Int.le_antisymm h hge)
    · exact Int64.ofInt_toInt i

theorem toInt64_ofInt64 {i : Int64} (hi : i.toInt.natAbs < exactLimit) : toInt64 (ofInt64 i) = i := by
  by_cases hzero : i.toInt = 0
  · obtain rfl : i = 0 := Int64.toInt_inj.mp hzero
    decide +kernel
  · obtain ⟨m, e, h, hdyadic⟩ := dyadic?_ofInt hzero (natAbs_toInt_lt i)
    have htruncate := h.truncate (Int.natAbs_pos.mpr hzero) hi (decide (i.toInt < 0))
    have hsigned : (if decide (i.toInt < 0) then -(i.toInt.natAbs : Int) else i.toInt.natAbs) = i.toInt := by
      by_cases hneg : i.toInt < 0
      · rw [if_pos (decide_eq_true hneg)]
        omega
      · rw [if_neg (by simpa using hneg)]
        omega
    unfold ofInt64 toInt64
    rw [hdyadic]
    dsimp only
    rw [htruncate, hsigned, clampInt64_toInt]

end QueryPlan.Double
