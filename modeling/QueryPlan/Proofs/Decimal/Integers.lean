import QueryPlan.Proofs.Decimal.Dyadic
/-!
# Integers as doubles

An integer up to two to the 53rd is a double, and greater integers are greater doubles. The bits of such a
double are computed through the steps by which it is made: an integer is scaled to a mantissa of 53 bits,
nothing of which is rounded away, and packed.
-/
namespace QueryPlan.Double

open Float.Model (Format UnpackedFloat totalExponent)
open Float.Model.UnpackedFloat

/-! ## Exact mantissas -/

/-- A mantissa of 53 bits with an exponent that a double has. -/
structure IsNormal (m : Nat) (e : Int) : Prop where
  low : 2 ^ 52 ≤ m
  high : m < 2 ^ 53
  least : -1074 ≤ e
  greatest : e ≤ 971

theorem IsNormal.pos {m : Nat} {e : Int} (h : IsNormal m e) : 0 < m :=
  Nat.lt_of_lt_of_le (by decide) h.low

/-- Bits that are zero are shifted out without a trace. -/
theorem shiftRight_exact (m k : Nat) :
    (⟨m * 2 ^ k, false, false⟩ : ExtendedMantissa) >>> k = ⟨m, false, false⟩ := by
  induction k generalizing m with
  | zero => rw [Nat.pow_zero, Nat.mul_one]; rfl
  | succ k ih =>
    rw [Nat.pow_succ', ← Nat.mul_assoc]
    show ((⟨m * 2 * 2 ^ k, false, false⟩ : ExtendedMantissa) >>> k).shiftRightOne = _
    rw [ih]
    simp [ExtendedMantissa.shiftRightOne]

/-- A mantissa with zero bits behind it is shifted to where a double has it. -/
theorem shiftToTargetExponent_exact {m : Nat} {e : Int} (h : IsNormal m e) (k : Nat) :
    shiftToTargetExponent Format.binary64 (m * 2 ^ k) (e - k) .exact = (⟨m, false, false⟩, e) := by
  have hlog : (m * 2 ^ k).log2 = 52 + k := by
    have hpos := Nat.two_pow_pos k
    rw [Nat.log2_eq_iff (Nat.ne_of_gt (Nat.mul_pos h.pos hpos)),
      show 52 + k + 1 = 53 + k by omega, Nat.pow_add, Nat.pow_add]
    exact ⟨Nat.mul_le_mul_right _ h.low, Nat.mul_lt_mul_of_pos_right h.high hpos⟩
  have htarget : Format.binary64.targetExponent (totalExponent (m * 2 ^ k) (e - k)) = e := by
    have := h.least
    rw [totalExponent, hlog, Format.targetExponent]
    show Max.max (((52 + k : Nat) : Int) + 1 + (e - k) - 53) (-1074) = e
    omega
  rw [shiftToTargetExponent, htarget, shiftToExponent, show (e - (e - (k : Int))).toNat = k by omega]
  dsimp only [ExtendedMantissa.ofMantissaAndAccuracy]
  rw [shiftRight_exact, Int.sub_add_cancel]

theorem roundWithAccuracy_exact {m : Nat} {e : Int} (h : IsNormal m e) (s : Sign) (k : Nat) :
    roundWithAccuracy Format.binary64 s (m * 2 ^ k) (e - k) .exact = .finite s m e h.pos := by
  have hagain := shiftToTargetExponent_exact h 0
  rw [Nat.pow_zero, Nat.mul_one, Int.natCast_zero, Int.sub_zero] at hagain
  unfold roundWithAccuracy
  rw [shiftToTargetExponent_exact h k]
  dsimp only [ExtendedMantissa.roundedMantissa, ExtendedMantissa.accuracy,
    Accuracy.roundToNearestEven]
  rw [hagain, dif_neg (Nat.ne_of_gt h.pos)]

/-- An integer as a mantissa. -/
def scaled (n : Nat) : Nat := n * 2 ^ (52 - n.log2)

theorem isNormal_scaled {n : Nat} (hpos : 0 < n) (hn : n < 2 ^ 53) :
    IsNormal (scaled n) (n.log2 - 52) := by
  have hlog : n.log2 < 53 := (Nat.log2_lt (Nat.ne_of_gt hpos)).mpr hn
  have hlow := Nat.log2_self_le (Nat.ne_of_gt hpos)
  have hhigh := Nat.lt_log2_self (n := n)
  have hpow := Nat.two_pow_pos (52 - n.log2)
  refine ⟨?_, ?_, by omega, by omega⟩
  · calc 2 ^ 52 = 2 ^ n.log2 * 2 ^ (52 - n.log2) := by rw [← Nat.pow_add]; congr 1; omega
      _ ≤ scaled n := Nat.mul_le_mul_right _ hlow
  · calc scaled n < 2 ^ (n.log2 + 1) * 2 ^ (52 - n.log2) := Nat.mul_lt_mul_of_pos_right hhigh hpow
      _ = 2 ^ 53 := by rw [← Nat.pow_add]; congr 1; omega

/-- Integers below two to the 53rd are rounded to themselves. -/
theorem normalize_exact {n : Nat} (hpos : 0 < n) (hn : n < 2 ^ 53) :
    UnpackedFloat.normalize Format.binary64 n 0 .positive =
      .finite .positive (scaled n) (n.log2 - 52) (isNormal_scaled hpos hn).pos := by
  have hlog : n.log2 < 53 := (Nat.log2_lt (Nat.ne_of_gt hpos)).mpr hn
  have hround := roundWithAccuracy_exact (isNormal_scaled hpos hn) .positive 0
  have htarget : Format.binary64.targetExponent (totalExponent n 0) = n.log2 - 52 := by
    rw [totalExponent, Format.targetExponent]
    show Max.max ((n.log2 : Int) + 1 + 0 - 53) (-1074) = _
    omega
  rw [UnpackedFloat.normalize, Int.compare_eq_gt.mpr (by omega)]
  show UnpackedFloat.round Format.binary64 .positive n 0 = _
  rw [UnpackedFloat.round, htarget, decreaseExponent, Nat.shiftLeft_eq,
    show (0 - ((n.log2 : Int) - 52)).toNat = 52 - n.log2 by omega]
  show roundWithAccuracy Format.binary64 .positive (scaled n) (0 - ((52 - n.log2 : Nat) : Int)) .exact = _
  rw [Nat.pow_zero, Nat.mul_one] at hround
  rw [← hround]
  congr 1
  omega

/-! ## Bits -/

theorem toNat_unpackSign (b : BitVec 64) :
    (@unpackSign Format.binary64 b).toNat = b.toNat / 2 ^ 63 := by
  have hlt : b.toNat < 2 ^ 64 := b.isLt
  unfold unpackSign
  simp [Nat.shiftRight_eq_div_pow]
  omega

section

variable {m : Nat} {e : Int} (h : IsNormal m e)

include h

/-- The exponent among the bits. -/
theorem IsNormal.biased : 1 ≤ (e + 1075).toNat ∧ (e + 1075).toNat ≤ 2046 := by
  have := h.least
  have := h.greatest
  omega

theorem pack_normal (s : Sign) : UnpackedFloat.pack Format.binary64 (.finite s m e h.pos) =
    packComponents Format.binary64 s (BitVec.ofNat 11 (e + 1075).toNat) (BitVec.ofNat 52 m) := by
  have hlog : m.log2 = 52 := (Nat.log2_eq_iff (Nat.ne_of_gt h.pos)).mpr ⟨h.low, h.high⟩
  have hbiased := h.biased
  have hexponent : e + Format.binary64.exponentBias + Format.binary64.mantissaBitsWithoutImplicit =
      e + 1075 := by
    show e + 1023 + 52 = e + 1075
    omega
  unfold UnpackedFloat.pack
  dsimp only
  rw [hexponent, hlog, if_neg (by show ¬2048 ≤ _; omega)]
  exact if_pos rfl

theorem toNat_pack (s : Sign) :
    (UnpackedFloat.pack Format.binary64 (.finite s m e h.pos)).toNat =
      s.toBitVec.toNat * 2 ^ 63 + (e + 1075).toNat * 2 ^ 52 + (m - 2 ^ 52) := by
  have hlow := h.low
  have hhigh := h.high
  have hbiased := h.biased
  have hexponent : (BitVec.ofNat 11 (e + 1075).toNat).toNat = (e + 1075).toNat :=
    Nat.mod_eq_of_lt (by omega)
  have hmantissa : (BitVec.ofNat 52 m).toNat = m - 2 ^ 52 := by
    rw [BitVec.toNat_ofNat]
    omega
  rw [pack_normal h, packComponents]
  show ((s.toBitVec ++ BitVec.ofNat 11 (e + 1075).toNat) ++ BitVec.ofNat 52 m).toNat = _
  rw [BitVec.toNat_append, ← Nat.shiftLeft_add_eq_or_of_lt (BitVec.isLt _), BitVec.toNat_append,
    ← Nat.shiftLeft_add_eq_or_of_lt (BitVec.isLt _), Nat.shiftLeft_eq, Nat.shiftLeft_eq, hexponent,
    hmantissa]
  omega

theorem unpack_pack (s : Sign) :
    UnpackedFloat.unpack Format.binary64 (UnpackedFloat.pack Format.binary64 (.finite s m e h.pos)) =
      .finite s m e h.pos := by
  have hlow := h.low
  have hhigh := h.high
  have hbiased := h.biased
  have hbits := toNat_pack h s
  have hs := s.toBitVec.isLt
  let d := Float.ofModel (.pack (.finite s m e h.pos))
  have hexponent : (@unpackExponent Format.binary64 d.toBits.toBitVec).toNat = (e + 1075).toNat := by
    rw [toNat_unpackExponent, show d.toBits.toNat = _ from hbits]
    omega
  have hmantissa : (@unpackMantissa Format.binary64 d.toBits.toBitVec).toNat = m - 2 ^ 52 := by
    rw [toNat_unpackMantissa, show d.toBits.toNat = _ from hbits]
    omega
  have hsign : @unpackSign Format.binary64 d.toBits.toBitVec = s.toBitVec := by
    apply BitVec.eq_of_toNat_eq
    rw [toNat_unpackSign, show d.toBits.toBitVec.toNat = _ from hbits]
    omega
  show UnpackedFloat.unpack Format.binary64 d.toBits.toBitVec = _
  unfold UnpackedFloat.unpack
  dsimp only
  rw [if_neg, if_neg, hsign]
  · have hvalue : (1#1 ++ @unpackMantissa Format.binary64 d.toBits.toBitVec).toNat = m := by
      rw [BitVec.toNat_append, ← Nat.shiftLeft_add_eq_or_of_lt (BitVec.isLt _), Nat.shiftLeft_eq,
        hmantissa]
      show 1 * 2 ^ 52 + _ = m
      omega
    have hplace : ((@unpackExponent Format.binary64 d.toBits.toBitVec).toNat : Int) -
        (Format.binary64.exponentBias + 52) = e := by
      rw [hexponent]
      show (((e + 1075).toNat : Nat) : Int) - (1023 + 52) = e
      have := h.least
      omega
    congr 1
    cases s <;> rfl
  · intro hzero
    have hvalue := congrArg BitVec.toNat hzero
    rw [hexponent] at hvalue
    exact absurd hvalue (by show _ ≠ 0; omega)
  · intro hones
    have hvalue := congrArg BitVec.toNat hones
    rw [hexponent] at hvalue
    exact absurd hvalue (by show _ ≠ 2047; omega)

end

theorem toModel_ofNat {n : Nat} (hpos : 0 < n) (hn : n < 2 ^ 53) : (Float.ofNat n).toModel =
    .pack (.finite .positive (scaled n) (n.log2 - 52) (isNormal_scaled hpos hn).pos) := by
  have hnormal := isNormal_scaled hpos hn
  have hone : (Float.ofBits 0x3FF0000000000000).toModel.unpack =
      .finite .positive (2 ^ 52) (-52) (by decide) := rfl
  have hword : n.toUInt64.toNat = n := Nat.mod_eq_of_lt (by show n < 2 ^ 64; omega)
  have hinteger : (Float.Model.ofUInt64 n.toUInt64).unpack =
      .finite .positive (scaled n) (n.log2 - 52) hnormal.pos := by
    show UnpackedFloat.unpack _
      (UnpackedFloat.pack _ (UnpackedFloat.normalize _ n.toUInt64.toNat 0 .positive)) = _
    rw [hword, normalize_exact hpos hn]
    exact unpack_pack hnormal .positive
  show (Float.ofScientific n false 0).toModel = _
  unfold Float.ofScientific
  rw [dif_pos ⟨hn, by decide⟩]
  show Float.Model.pack (UnpackedFloat.mul Format.binary64 (Float.Model.ofUInt64 n.toUInt64).unpack
    (Float.ofBits 0x3FF0000000000000).toModel.unpack) = _
  rw [hinteger, hone]
  exact congrArg Float.Model.pack (roundWithAccuracy_exact hnormal .positive 52)

/-- The bits of an integer up to two to the 53rd. -/
def wholeBits (n : Nat) : Nat :=
  if n = 0 then 0 else if n < 2 ^ 53 then (n.log2 + 1022) * 2 ^ 52 + scaled n else 1076 * 2 ^ 52

theorem wholeBits_eq {n : Nat} (hpos : 0 < n) (hn : n < 2 ^ 53) :
    wholeBits n = (n.log2 - 52 + 1075 : Int).toNat * 2 ^ 52 + (scaled n - 2 ^ 52) := by
  have hlow := (isNormal_scaled hpos hn).low
  rw [wholeBits, if_neg (Nat.ne_of_gt hpos), if_pos hn,
    show ((n.log2 : Int) - 52 + 1075).toNat = n.log2 + 1023 by omega]
  omega

theorem toBits_ofNat {n : Nat} (hn : n ≤ 2 ^ 53) : (Float.ofNat n).toBits.toNat = wholeBits n := by
  rcases Nat.eq_zero_or_pos n with rfl | hpos
  · rfl
  · rcases Nat.lt_or_eq_of_le hn with hlt | rfl
    · show (Float.ofNat n).toModel.toBits.toNat = _
      rw [toModel_ofNat hpos hlt, wholeBits_eq hpos hlt]
      exact (toNat_pack (isNormal_scaled hpos hlt) .positive).trans (congrArg (· + _) (Nat.zero_add _))
    · decide +kernel

theorem toBits_neg_ofNat {n : Nat} (hpos : 0 < n) (hn : n ≤ 2 ^ 53) :
    (Float.ofNat n).neg.toBits.toNat = 2 ^ 63 + wholeBits n := by
  rcases Nat.lt_or_eq_of_le hn with hlt | rfl
  · have hnormal := isNormal_scaled hpos hlt
    show (Float.Model.pack (Float.ofNat n).toModel.unpack.neg).toBits.toNat = _
    rw [toModel_ofNat hpos hlt, wholeBits_eq hpos hlt, ← Nat.add_assoc]
    show (UnpackedFloat.pack Format.binary64 (UnpackedFloat.unpack Format.binary64
      (UnpackedFloat.pack Format.binary64 (.finite .positive _ _ hnormal.pos))).neg).toNat = _
    rw [unpack_pack hnormal]
    exact toNat_pack hnormal .negative
  · decide +kernel

/-! ## Order -/

theorem wholeBits_lt {m n : Nat} (hmn : m < n) (hn : n ≤ 2 ^ 53) : wholeBits m < wholeBits n := by
  have hpos : 0 < n := Nat.zero_lt_of_lt hmn
  have hbound : ∀ {k : Nat}, 0 < k → k < 2 ^ 53 → 2 ^ 52 ≤ scaled k ∧ scaled k < 2 ^ 53 :=
    fun hpos hlt => ⟨(isNormal_scaled hpos hlt).low, (isNormal_scaled hpos hlt).high⟩
  unfold wholeBits
  rw [if_neg (Nat.ne_of_gt hpos)]
  split
  · split <;> omega
  · next hm =>
    have hm' := hbound (Nat.pos_of_ne_zero hm) (by omega)
    rw [if_pos (by omega)]
    split
    · next hlt =>
      have hn' := hbound hpos hlt
      have hlog : m.log2 ≤ n.log2 := (Nat.le_log2 (Nat.ne_of_gt hpos)).mpr
        (Nat.le_trans (Nat.log2_self_le hm) (Nat.le_of_lt hmn))
      rcases Nat.lt_or_eq_of_le hlog with hlog | hlog
      · omega
      · have : scaled m < scaled n := by
          unfold scaled
          rw [hlog]
          exact Nat.mul_lt_mul_of_pos_right hmn (Nat.two_pow_pos _)
        omega
    · have hlog : m.log2 < 53 := (Nat.log2_lt hm).mpr (by omega)
      omega

theorem wholeBits_lt_sign {n : Nat} (hn : n ≤ 2 ^ 53) : wholeBits n < signBit := by
  have hle : wholeBits n ≤ wholeBits (2 ^ 53) := by
    rcases Nat.lt_or_eq_of_le hn with hlt | rfl
    · exact Nat.le_of_lt (wholeBits_lt hlt (Nat.le_refl _))
    · exact Nat.le_refl _
  exact Nat.lt_of_le_of_lt hle (by decide)

theorem orderKey_ofInt {i : Int} (hi : i.natAbs ≤ exactLimit) : orderKey (Float.ofInt i) =
    if 0 ≤ i then (wholeBits i.natAbs : Int) else -1 - wholeBits i.natAbs := by
  have hlt := wholeBits_lt_sign hi
  unfold orderKey
  cases i with
  | ofNat n =>
    have hbits : (Float.ofInt (.ofNat n)).toBits.toNat = wholeBits n := toBits_ofNat hi
    rw [hbits, if_pos (show 0 ≤ Int.ofNat n from Int.natCast_nonneg n)]
    exact if_pos hlt
  | negSucc n =>
    have hbits : (Float.ofInt (.negSucc n)).toBits.toNat = signBit + wholeBits (n + 1) :=
      toBits_neg_ofNat (Nat.succ_pos n) hi
    rw [hbits, if_neg (show ¬0 ≤ Int.negSucc n by omega)]
    refine (if_neg (by omega)).trans ?_
    show (signBit : Int) - 1 - (signBit + wholeBits (n + 1) : Nat) = -1 - (wholeBits (n + 1) : Nat)
    omega

theorem orderKey_ofInt_lt {i j : Int} (hij : i < j) (hi : i.natAbs ≤ exactLimit)
    (hj : j.natAbs ≤ exactLimit) : orderKey (Float.ofInt i) < orderKey (Float.ofInt j) := by
  rw [orderKey_ofInt hi, orderKey_ofInt hj]
  split
  · have := wholeBits_lt (show i.natAbs < j.natAbs by omega) hj
    rw [if_pos (by omega)]
    omega
  · split
    · omega
    · have := wholeBits_lt (show j.natAbs < i.natAbs by omega) hi
      omega

/-- Integers up to two to the 53rd have as doubles the order that they have as integers. -/
theorem order_ofInt64 {i j : Int64} (hi : i.toInt.natAbs ≤ exactLimit)
    (hj : j.toInt.natAbs ≤ exactLimit) :
    order (ofInt64 i) (ofInt64 j) = compare i.toInt j.toInt := by
  unfold order ofInt64
  rcases Int.lt_trichotomy i.toInt j.toInt with h | h | h
  · rw [Int.compare_eq_lt.mpr h, Int.compare_eq_lt.mpr (orderKey_ofInt_lt h hi hj)]
  · rw [h, Int.compare_eq_eq.mpr rfl, Int.compare_eq_eq.mpr rfl]
  · rw [Int.compare_eq_gt.mpr h, Int.compare_eq_gt.mpr (orderKey_ofInt_lt h hj hi)]

end QueryPlan.Double
