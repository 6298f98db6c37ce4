import Mathlib.Algebra.Ring.Nat
import Mathlib.Tactic.Common
import QueryPlan.Double
/-!
# Doubles and their bits

A finite double is told by its sign, mantissa and exponent, and there is one not-a-number and one
infinity of each sign.
-/
namespace QueryPlan.Double

theorem eq_of_bits {a b : Float} (h : a.toBits.toNat = b.toBits.toNat) : a = b := by
  have hmodel : a.toModel.toBits = b.toModel.toBits := UInt64.toNat_inj.mp h
  rcases a with ⟨⟨bits, valid⟩⟩
  rcases b with ⟨⟨bits', valid'⟩⟩
  cases hmodel
  rfl

/-- A finite double is its sign, mantissa and exponent. -/
theorem eq_of_dyadic? {a b : Float} {x : Dyadic} (ha : dyadic? a = some x) (hb : dyadic? b = some x) :
    a = b := by
  have hpow : leastNormal = 2 ^ 52 := rfl
  have hsign : signBit = 2 ^ 63 := rfl
  have hlt := a.toBits.toNat_lt
  have hlt' := b.toBits.toNat_lt
  have key : ∀ d : Float, dyadic? d = some x → d.toBits.toNat =
      (if x.negative then 2 ^ 63 else 0) + (if x.mantissa < 2 ^ 52 then x.mantissa
        else x.mantissa - 2 ^ 52 + (x.exponent + 1075).toNat * 2 ^ 52) := by
    intro d h
    have hlt := d.toBits.toNat_lt
    unfold dyadic? at h
    dsimp only at h
    rw [hpow, hsign] at h
    split at h
    · cases h
    · split at h
      · cases h
        simp only [decide_eq_true_eq]
        split <;> split <;> omega
      · cases h
        simp only [decide_eq_true_eq]
        split <;> split <;> omega
  exact eq_of_bits ((key a ha).trans (key b hb).symm)

/-! ## What is not finite -/

section

open Float.Model (UnpackedFloat Format)
open Float.Model.UnpackedFloat (unpackExponent unpackMantissa)

theorem isNaN_iff (d : Float) : d.isNaN = true ↔
    @unpackExponent Format.binary64 d.toBits.toBitVec = -1#_ ∧
      @unpackMantissa Format.binary64 d.toBits.toBitVec ≠ 0#_ := by
  show (UnpackedFloat.unpack Format.binary64 d.toBits.toBitVec).isNaN = true ↔ _
  unfold UnpackedFloat.unpack
  dsimp only
  by_cases hexponent : @unpackExponent Format.binary64 d.toBits.toBitVec = -1#_
  · rw [if_pos hexponent]
    by_cases hmantissa : @unpackMantissa Format.binary64 d.toBits.toBitVec = 0#_
    · rw [if_pos hmantissa]
      refine ⟨fun hnan => ?_, fun hnan => absurd hmantissa hnan.2⟩
      cases hnan
    · rw [if_neg hmantissa]
      exact ⟨fun _ => ⟨hexponent, hmantissa⟩, fun _ => rfl⟩
  · rw [if_neg hexponent]
    refine ⟨fun hnan => ?_, fun hnan => absurd hnan.1 hexponent⟩
    by_cases hzero : @unpackExponent Format.binary64 d.toBits.toBitVec = 0#_
    · rw [if_pos hzero] at hnan
      by_cases hmantissa : @unpackMantissa Format.binary64 d.toBits.toBitVec = 0#_
      · rw [dif_pos hmantissa] at hnan
        cases hnan
      · rw [dif_neg hmantissa] at hnan
        cases hnan
    · rw [if_neg hzero] at hnan
      cases hnan

theorem toNat_unpackExponent (d : Float) :
    (@unpackExponent Format.binary64 d.toBits.toBitVec).toNat = d.toBits.toNat / 2 ^ 52 % 2048 := by
  unfold unpackExponent
  simp [Nat.shiftRight_eq_div_pow]

theorem toNat_unpackMantissa (d : Float) :
    (@unpackMantissa Format.binary64 d.toBits.toBitVec).toNat = d.toBits.toNat % 2 ^ 52 := by
  unfold unpackMantissa
  simp

/-- There is one not-a-number. -/
theorem eq_of_isNaN {a b : Float} (ha : a.isNaN = true) (hb : b.isNaN = true) : a = b := by
  apply eq_of_bits
  have ha' := a.toModel.valid.eq_packedNaN ((isNaN_iff a).mp ha).1 ((isNaN_iff a).mp ha).2
  have hb' := b.toModel.valid.eq_packedNaN ((isNaN_iff b).mp hb).1 ((isNaN_iff b).mp hb).2
  exact congrArg BitVec.toNat (ha'.trans hb'.symm)

/-- A double that is neither finite nor not-a-number is infinite. -/
theorem fraction_eq_zero {d : Float} (h : dyadic? d = none) (hnan : d.isNaN = false) :
    d.toBits.toNat / 2 ^ 52 % 2048 = 2047 ∧ d.toBits.toNat % 2 ^ 52 = 0 := by
  have hscale : d.toBits.toNat / 2 ^ 52 % 2048 = 2047 := by
    unfold dyadic? at h
    dsimp only at h
    split at h
    · next hscale => exact hscale
    · split at h <;> cases h
  refine ⟨hscale, ?_⟩
  by_contra hfraction
  have hexponent : @unpackExponent Format.binary64 d.toBits.toBitVec = -1#_ := by
    apply BitVec.eq_of_toNat_eq
    rw [toNat_unpackExponent, hscale]
    rfl
  have hmantissa : @unpackMantissa Format.binary64 d.toBits.toBitVec ≠ 0#_ := by
    intro hzero
    have hvalue := congrArg BitVec.toNat hzero
    rw [toNat_unpackMantissa] at hvalue
    exact hfraction hvalue
  rw [(isNaN_iff d).mpr ⟨hexponent, hmantissa⟩] at hnan
  cases hnan

/-- Infinities are told by their sign. -/
theorem eq_of_infinite {a b : Float} (ha : dyadic? a = none) (hb : dyadic? b = none)
    (hnana : a.isNaN = false) (hnanb : b.isNaN = false) (hsign : isNegative a = isNegative b) : a = b := by
  have hbitsa := fraction_eq_zero ha hnana
  have hbitsb := fraction_eq_zero hb hnanb
  have hlta := a.toBits.toNat_lt
  have hltb := b.toBits.toNat_lt
  have hiff := decide_eq_decide.mp hsign
  rw [show signBit = 2 ^ 63 from rfl] at hiff
  exact eq_of_bits (by omega)

end

end QueryPlan.Double
