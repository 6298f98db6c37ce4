import Mathlib.Algebra.Order.Field.Power
import Mathlib.Data.Rat.Cast.Order
import Mathlib.Tactic.FieldSimp
import Mathlib.Tactic.Linarith
import Mathlib.Tactic.Positivity
import Mathlib.Tactic.Ring
import QueryPlan.Proofs.Decimal.Dyadic
import QueryPlan.Proofs.Decimal.Reading
/-!
# The shortest decimal of a double is told from those of others

Every positive double stands for the numbers that round to it, and no number rounds to two doubles.
Among the multiples of a power of ten that is small enough one rounds to the double at hand, and
seventeen digits are always enough for that, so the digits that are found tell the double.
-/
namespace QueryPlan

/-! ## Doubles in their canonical form -/

namespace Double.Dyadic

/-- Mantissa and exponent are those of a double: the mantissa has 53 binary digits unless the exponent
is the least one. -/
structure Canonical (x : Dyadic) : Prop where
  mantissa_lt : x.mantissa < 2 ^ 53
  le_exponent : -1074 ≤ x.exponent
  normal : -1074 < x.exponent → 2 ^ 52 ≤ x.mantissa

/-- A quarter of the last binary place. -/
def quarter (x : Dyadic) : ℚ := 2 ^ (x.exponent - 2)

theorem quarter_pos (x : Dyadic) : 0 < x.quarter := by
  unfold quarter
  positivity

/-- Magnitudes compare by exponent first. -/
def Below (x y : Dyadic) : Prop :=
  x.exponent < y.exponent ∨ x.exponent = y.exponent ∧ x.mantissa < y.mantissa

theorem two_mul_quarter_le {x y : Dyadic} (h : x.exponent < y.exponent) : 2 * x.quarter ≤ y.quarter := by
  unfold quarter
  rw [← zpow_one_add₀ (by norm_num)]
  exact zpow_le_zpow_right₀ (by norm_num) (by omega)

end Double.Dyadic

theorem Double.canonical_of_dyadic? {d : Float} {x : Double.Dyadic} (h : Double.dyadic? d = some x) :
    x.Canonical := by
  have hpow : Double.leastNormal = 2 ^ 52 := rfl
  unfold Double.dyadic? at h
  dsimp only at h
  rw [hpow] at h
  split at h
  · cases h
  · split at h
    · cases h
      exact ⟨by dsimp only; omega, by simp, by simp⟩
    · cases h
      exact ⟨by dsimp only; omega, by dsimp only; omega, by dsimp only; omega⟩

namespace Decimal

/-! ## Leading places -/

theorem lt_pow_width (n : Nat) : n < 10 ^ width n := by
  refine (Nat.length_toDigits_le_iff (by omega) ?_).mp (Nat.le_refl _)
  exact List.length_pos_iff.mpr Nat.toDigits_ne_nil

theorem pow_width_le {n : Nat} (h : 0 < n) : 10 ^ (width n - 1) ≤ n := by
  rcases Nat.eq_zero_or_pos (width n - 1) with hzero | hpos
  · rw [hzero]
    exact h
  · by_contra hlt
    have hle := (Nat.length_toDigits_le_iff (by omega) hpos).mpr (Nat.lt_of_not_le hlt)
    unfold width at hle hpos
    omega

/-- The leading place of a quotient is not above it. -/
theorem zpow_leadingPlace_le {num den : Nat} (hnum : 0 < num) (hden : 0 < den) :
    (10 : ℚ) ^ leadingPlace num den ≤ num / den := by
  have hnum' : (0 : ℚ) < num := by exact_mod_cast hnum
  have hden' : (0 : ℚ) < den := by exact_mod_cast hden
  unfold leadingPlace
  split
  · next hle =>
    have hquotient : 0 < num / den := Nat.div_pos hle hden
    have hwidth : 0 < width (num / den) := List.length_pos_iff.mpr Nat.toDigits_ne_nil
    have hplace : ((width (num / den) : Int) - 1) = ((width (num / den) - 1 : Nat) : Int) := by omega
    rw [hplace, zpow_natCast, le_div_iff₀ hden']
    have hpow : 10 ^ (width (num / den) - 1) * den ≤ num :=
      (Nat.le_div_iff_mul_le hden).mp (pow_width_le hquotient)
    exact_mod_cast hpow
  · have hpow : den < 10 ^ width (den / num) * num := (Nat.div_lt_iff_lt_mul hnum).mp (lt_pow_width _)
    rw [zpow_neg, zpow_natCast, inv_le_comm₀ (by positivity) (by positivity), inv_div,
      div_le_iff₀ hnum']
    exact_mod_cast hpow.le

/-! ## Numbers that round to a double -/

/-- The number rounds to the double whose quarters are of that size. -/
def Roundings.Contains (r : Roundings) (quarter q : ℚ) : Prop :=
  if r.closed then r.low * quarter ≤ q ∧ q ≤ r.high * quarter
  else r.low * quarter < q ∧ q < r.high * quarter

theorem Roundings.holds_iff {r : Roundings} {num den candidate : Nat} (hden : 0 < den) :
    r.holds num den candidate = true ↔ r.Contains (num / den) candidate := by
  have hden' : (0 : ℚ) < den := by exact_mod_cast hden
  have hle : ∀ a : Nat, ((a : ℚ) * (num / den) ≤ candidate ↔ a * num ≤ candidate * den) ∧
      ((candidate : ℚ) ≤ a * (num / den) ↔ candidate * den ≤ a * num) := fun a => by
    rw [← mul_div_assoc, div_le_iff₀ hden', le_div_iff₀ hden']
    exact ⟨by exact_mod_cast Iff.rfl, by exact_mod_cast Iff.rfl⟩
  unfold Roundings.holds Roundings.Contains
  dsimp only
  split
  · rw [(hle r.low).1, (hle r.high).2, decide_eq_true_eq]
  · rw [decide_eq_true_eq, ← not_le, ← not_le, ← not_le, ← not_le, (hle r.low).2, (hle r.high).1]

/-- The size of a quarter does not matter if it goes with the number. -/
theorem Roundings.contains_mul {r : Roundings} {quarter q c : ℚ} (hc : 0 < c) :
    r.Contains (quarter * c) (q * c) ↔ r.Contains quarter q := by
  unfold Roundings.Contains
  simp only [← mul_assoc, mul_le_mul_iff_left₀ hc, mul_lt_mul_iff_left₀ hc]

theorem inUnits_div (num den : Nat) (place : Int) :
    ((inUnits num den place).1 : ℚ) / (inUnits num den place).2 * 10 ^ place = num / den := by
  have hsplit : (10 : ℚ) ^ place = 10 ^ place.toNat / 10 ^ (-place).toNat := by
    rw [← zpow_natCast, ← zpow_natCast, ← zpow_sub₀ (by norm_num)]
    congr 1
    omega
  simp only [inUnits, Nat.pow_eq, Nat.cast_mul, Nat.cast_pow, Nat.cast_ofNat]
  rw [hsplit]
  rcases Nat.eq_zero_or_pos den with rfl | hden
  · simp
  · have hden' : (den : ℚ) ≠ 0 := by exact_mod_cast hden.ne'
    field_simp

theorem inUnits_pos {num den : Nat} (hden : 0 < den) (place : Int) : 0 < (inUnits num den place).2 :=
  Nat.mul_pos hden (Nat.pow_pos (by omega))

/-- In units of a place, a candidate is tested for whether that multiple rounds to the double. -/
theorem Roundings.holds_inUnits {r : Roundings} {num den candidate : Nat} {place : Int} (hden : 0 < den) :
    r.holds (inUnits num den place).1 (inUnits num den place).2 candidate = true ↔
      r.Contains (num / den) (candidate * 10 ^ place) := by
  rw [Roundings.holds_iff (inUnits_pos hden place), ← inUnits_div num den place,
    Roundings.contains_mul (by positivity)]

/-! ## The search -/

theorem Roundings.holds_of_nearest? {r : Roundings} {num den digits : Nat}
    (h : r.nearest? num den = some digits) : r.holds num den digits = true := by
  unfold Roundings.nearest? at h
  dsimp only at h
  split at h
  · cases h
  · next hbelow _ => cases h; exact hbelow
  · next _ habove => cases h; exact habove
  · next hbelow habove =>
    split at h
    · cases h; exact hbelow
    · cases h; exact habove

/-- If one of the places that are tried has a multiple, the search finds one. -/
theorem Roundings.search_holds {r : Roundings} {num den k : Nat} {place : Int} {fuel : Nat}
    (hk : k < fuel) (h : (r.nearest? (inUnits num den (place - k)).1 (inUnits num den (place - k)).2).isSome) :
    r.holds (inUnits num den (r.search num den place fuel).2).1
      (inUnits num den (r.search num den place fuel).2).2 (r.search num den place fuel).1 = true := by
  induction fuel generalizing place k with
  | zero => cases hk
  | succ fuel ih =>
    unfold Roundings.search
    dsimp only
    split
    · next digits hfound => exact holds_of_nearest? hfound
    · next hnone =>
      cases k with
      | zero =>
        rw [Nat.cast_zero, sub_zero, hnone] at h
        cases h
      | succ k =>
        refine ih (k := k) (by omega) ?_
        rwa [sub_sub, show (1 : Int) + (k : Int) = ((k + 1 : Nat) : Int) by push_cast; ring]

theorem Roundings.holds_of_lt {r : Roundings} {num den candidate : Nat}
    (hlow : r.low * num < candidate * den) (hhigh : candidate * den < r.high * num) :
    r.holds num den candidate = true := by
  unfold Roundings.holds
  dsimp only
  split
  · exact decide_eq_true ⟨hlow.le, hhigh.le⟩
  · exact decide_eq_true ⟨hlow, hhigh⟩

theorem Roundings.isSome_nearest?_of_holds {r : Roundings} {num den : Nat}
    (h : r.holds num den (r.value * num / den) = true ∨ r.holds num den (r.value * num / den + 1) = true) :
    (r.nearest? num den).isSome = true := by
  unfold Roundings.nearest?
  dsimp only
  split
  · next hbelow habove => simp [hbelow, habove] at h
  · rfl
  · rfl
  · split <;> rfl

/-- Of the two multiples of a unit around a value one rounds to the double if the unit is small. -/
theorem Roundings.isSome_nearest? {r : Roundings} {num den : Nat} (hden : 0 < den)
    (hlow : r.low < r.value) (hhigh : r.high = r.value + 2)
    (hsmall : r.low + 2 ≤ r.value ∧ den < 4 * num ∨ den < 2 * num) :
    (r.nearest? num den).isSome = true := by
  have hbelow : r.value * num / den * den ≤ r.value * num := Nat.div_mul_le_self _ _
  have habove : r.value * num < (r.value * num / den + 1) * den := by
    rw [Nat.add_mul, Nat.one_mul]
    exact Nat.lt_div_mul_add hden
  have hnum : 0 < num := by omega
  have hlow' : r.low * num < r.value * num := Nat.mul_lt_mul_of_pos_right hlow hnum
  have hhigh' : r.high * num = r.value * num + 2 * num := by rw [hhigh, Nat.add_mul]
  apply Roundings.isSome_nearest?_of_holds
  by_cases hstep : (r.value * num / den + 1) * den < r.high * num
  · exact .inr (holds_of_lt (hlow'.trans habove) hstep)
  · -- the upper multiple is too far away, so the lower one is close
    rw [Nat.add_mul, Nat.one_mul] at habove hstep
    rcases hsmall with ⟨hlow₂, hsmall⟩ | hsmall
    · have hlow₂' : r.low * num + 2 * num ≤ r.value * num := by
        rw [← Nat.add_mul]
        exact Nat.mul_le_mul_right _ hlow₂
      exact .inl (holds_of_lt (by omega) (by omega))
    · omega

/-! ## No number rounds to two doubles -/

/-- The lower end is nearer where the lower neighbour has a smaller exponent. -/
theorem Roundings.low_of (x : Double.Dyadic) :
    (x.mantissa = 2 ^ 52 ∧ -1074 < x.exponent ∧ (Roundings.of x).low = 4 * x.mantissa - 1) ∨
      (¬(x.mantissa = 2 ^ 52 ∧ -1074 < x.exponent) ∧ (Roundings.of x).low = 4 * x.mantissa - 2) := by
  unfold Roundings.of
  dsimp only
  split
  · next h => exact .inl ⟨h.1, h.2, rfl⟩
  · next h => exact .inr ⟨h, rfl⟩

theorem Roundings.Contains.bounds {r : Roundings} {quarter q : ℚ} (h : r.Contains quarter q) :
    r.low * quarter ≤ q ∧ q ≤ r.high * quarter ∧
      (r.closed = false → r.low * quarter < q ∧ q < r.high * quarter) := by
  unfold Roundings.Contains at h
  split at h
  · next hclosed => exact ⟨h.1, h.2, fun hopen => by simp [hclosed] at hopen⟩
  · exact ⟨h.1.le, h.2.le, fun _ => h⟩

/-- Numbers up to an upper end are less than those from a lower end on that is not below it, unless
the ends meet and both belong. -/
theorem lt_of_ends {high low c : Nat} {quarter quarter' p q : ℚ} (hpos : 0 < quarter)
    (hc : c * quarter ≤ quarter') (hp : p ≤ high * quarter) (hq : low * quarter' ≤ q)
    (h : high < low * c ∨ high = low * c ∧ (p < high * quarter ∨ low * quarter' < q)) :
    p < q := by
  have hlow : ((low * c : Nat) : ℚ) * quarter ≤ low * quarter' := by
    rw [Nat.cast_mul, mul_assoc]
    exact mul_le_mul_of_nonneg_left hc (by positivity)
  rcases h with h | ⟨rfl, h | h⟩
  · have hends : (high : ℚ) * quarter < (low * c : Nat) * quarter :=
      mul_lt_mul_of_pos_right (by exact_mod_cast h) hpos
    linarith
  · linarith
  · linarith

theorem Roundings.closed_of_odd {x : Double.Dyadic} (h : x.mantissa % 2 = 1) :
    (Roundings.of x).closed = false := by
  simp [Roundings.of, h]

/-- What rounds to the lesser of two doubles is less. -/
theorem Roundings.contains_lt {x y : Double.Dyadic} (hx : x.Canonical) (hy : y.Canonical)
    (h : x.Below y) {p q : ℚ} (hp : (Roundings.of x).Contains x.quarter p)
    (hq : (Roundings.of y).Contains y.quarter q) : p < q := by
  have hhigh : (Roundings.of x).high = 4 * x.mantissa + 2 := rfl
  have hlow := low_of y
  have hmantissa := hx.mantissa_lt
  have hexponent := hx.le_exponent
  obtain ⟨-, hp, hpopen⟩ := hp.bounds
  obtain ⟨hq, -, hqopen⟩ := hq.bounds
  rcases h with h | ⟨hexp, h⟩
  · -- a place of the greater double is at least two of the lesser one
    have hnormal := hy.normal (by omega)
    refine lt_of_ends (c := 2) x.quarter_pos (Double.Dyadic.two_mul_quarter_le h) hp hq ?_
    rcases Nat.lt_or_ge (Roundings.of x).high ((Roundings.of y).low * 2) with hlt | hge
    · exact .inl hlt
    · exact .inr ⟨by omega, .inl (hpopen (closed_of_odd (by omega))).2⟩
  · have hquarter : x.quarter = y.quarter := by rw [Double.Dyadic.quarter, hexp, Double.Dyadic.quarter]
    refine lt_of_ends (c := 1) x.quarter_pos (by rw [Nat.cast_one, one_mul, hquarter]) hp hq ?_
    rcases Nat.lt_or_ge (Roundings.of x).high ((Roundings.of y).low * 1) with hlt | hge
    · exact .inl hlt
    · -- the ends meet, and one of two adjacent mantissas is odd
      refine .inr ⟨by omega, ?_⟩
      rcases Nat.mod_two_eq_zero_or_one x.mantissa with heven | hodd
      · exact .inr (hqopen (closed_of_odd (by omega))).1
      · exact .inl (hpopen (closed_of_odd hodd)).2

/-- A number rounds to one double at most. -/
theorem Roundings.contains_unique {x y : Double.Dyadic} (hx : x.Canonical) (hy : y.Canonical) {q : ℚ}
    (hqx : (Roundings.of x).Contains x.quarter q) (hqy : (Roundings.of y).Contains y.quarter q) :
    x.mantissa = y.mantissa ∧ x.exponent = y.exponent := by
  have hxy : ¬ x.Below y := fun h => lt_irrefl q (contains_lt hx hy h hqx hqy)
  have hyx : ¬ y.Below x := fun h => lt_irrefl q (contains_lt hy hx h hqy hqx)
  unfold Double.Dyadic.Below at hxy hyx
  omega

/-! ## Seventeen digits -/

theorem trimZeros_value (fuel digits : Nat) (place : Int) :
    ((trimZeros fuel digits place).1 : ℚ) * 10 ^ (trimZeros fuel digits place).2 = digits * 10 ^ place := by
  induction fuel generalizing digits place with
  | zero => rfl
  | succ fuel ih =>
    unfold trimZeros
    split
    · next h =>
      have hdigits : ((digits / 10 : Nat) : ℚ) * 10 = digits := by
        exact_mod_cast Nat.div_mul_cancel (Nat.dvd_of_mod_eq_zero h.2)
      rw [ih, zpow_add_one₀ (by norm_num), mul_comm ((10 : ℚ) ^ place), ← mul_assoc, hdigits]
    · rfl

/-- A quarter of a place as a quotient. -/
theorem quarter_eq (x : Double.Dyadic) :
    x.quarter =
      ((Nat.pow 2 (x.exponent - 2).toNat : Nat) : ℚ) / (Nat.pow 2 (-(x.exponent - 2)).toNat : Nat) := by
  rw [Double.Dyadic.quarter, Nat.pow_eq, Nat.pow_eq, Nat.cast_pow, Nat.cast_pow, Nat.cast_ofNat,
    ← zpow_natCast, ← zpow_natCast, ← zpow_sub₀ (by norm_num)]
  congr 1
  omega

/-- So many places below the leading one, a unit is that much smaller than the number. -/
theorem unit_mul_pow_le {value num den : Nat} (hvalue : 0 < value) (hnum : 0 < num) (hden : 0 < den)
    (k : Nat) :
    (inUnits num den (leadingPlace (value * num) den - k)).2 * 10 ^ k ≤
      value * (inUnits num den (leadingPlace (value * num) den - k)).1 := by
  have hplace := zpow_leadingPlace_le (Nat.mul_pos hvalue hnum) hden
  generalize leadingPlace (value * num) den = place at hplace ⊢
  have hunits := inUnits_div num den (place - k)
  have hpos : (0 : ℚ) < (inUnits num den (place - k)).2 := by exact_mod_cast inUnits_pos hden _
  have hsplit : (10 : ℚ) ^ place = 10 ^ k * 10 ^ (place - k) := by
    rw [← zpow_natCast, ← zpow_add₀ (by norm_num)]
    congr 1
    omega
  rw [Nat.cast_mul, mul_div_assoc, ← hunits, hsplit, ← mul_assoc,
    mul_le_mul_iff_left₀ (by positivity), ← mul_div_assoc, le_div_iff₀ hpos] at hplace
  rw [mul_comm]
  exact_mod_cast hplace

/-- The shortest decimal of a double rounds to it. -/
theorem shortest_contains {x : Double.Dyadic} (hx : x.Canonical) (hpos : 0 < x.mantissa) :
    (Roundings.of x).Contains x.quarter ((shortest x).1 * 10 ^ (shortest x).2) := by
  have hvalue : (Roundings.of x).value = 4 * x.mantissa := rfl
  have hmantissa := hx.mantissa_lt
  have hlow := Roundings.low_of x
  have hnum : 0 < Nat.pow 2 (x.exponent - 2).toNat := Nat.pow_pos (by omega)
  have hden : 0 < Nat.pow 2 (-(x.exponent - 2)).toNat := Nat.pow_pos (by omega)
  have hunit := unit_mul_pow_le (show 0 < (Roundings.of x).value by omega) hnum hden 16
  unfold shortest
  dsimp only
  rw [trimZeros_value, quarter_eq, ← Roundings.holds_inUnits hden]
  refine Roundings.search_holds (k := 16) (by omega)
    (Roundings.isSome_nearest? (inUnits_pos hden _) (by omega) rfl ?_)
  have hunitpos : 0 < (inUnits (Nat.pow 2 (x.exponent - 2).toNat) (Nat.pow 2 (-(x.exponent - 2)).toNat)
      (leadingPlace ((Roundings.of x).value * Nat.pow 2 (x.exponent - 2).toNat)
        (Nat.pow 2 (-(x.exponent - 2)).toNat) - (16 : Nat))).2 := inUnits_pos hden _
  generalize inUnits _ _ _ = unit at hunit hunitpos ⊢
  rw [hvalue] at hunit
  rcases hlow with ⟨hpower, -, -⟩ | ⟨-, hlow⟩
  · rw [hpower] at hunit
    exact .inr (by omega)
  · have hle : 4 * x.mantissa * unit.1 ≤ 2 ^ 55 * unit.1 := Nat.mul_le_mul_right _ (by omega)
    exact .inl ⟨by omega, by omega⟩

/-! ## Texts -/

theorem Roundings.Contains.pos {x : Double.Dyadic} (hpos : 0 < x.mantissa) {q : ℚ}
    (h : (Roundings.of x).Contains x.quarter q) : 0 < q := by
  have hlow : 0 < (Roundings.of x).low := by
    have := low_of x
    omega
  have hbound : (0 : ℚ) < (Roundings.of x).low * x.quarter :=
    mul_pos (by exact_mod_cast hlow) x.quarter_pos
  exact hbound.trans_le h.bounds.1

/-- The number rounds to the magnitude of a double; nothing but zero is taken to round to zero. -/
def RoundsTo (q : ℚ) (x : Double.Dyadic) : Prop :=
  if x.mantissa = 0 then q = 0 else (Roundings.of x).Contains x.quarter q

theorem RoundsTo.unique {q : ℚ} {x y : Double.Dyadic} (hqx : RoundsTo q x) (hx : x.Canonical)
    (hy : y.Canonical) (hqy : RoundsTo q y) :
    x.mantissa = y.mantissa ∧ x.exponent = y.exponent := by
  have hx₁ := hx.le_exponent
  have hx₂ := hx.normal
  have hy₁ := hy.le_exponent
  have hy₂ := hy.normal
  unfold RoundsTo at hqx hqy
  split at hqx
  · split at hqy
    · exact ⟨by omega, by omega⟩
    · next hne => exact absurd hqx (Roundings.Contains.pos (Nat.pos_of_ne_zero hne) hqy).ne'
  · next hne =>
    split at hqy
    · exact absurd hqy (Roundings.Contains.pos (Nat.pos_of_ne_zero hne) hqx).ne'
    · exact Roundings.contains_unique hx hy hqx hqy

/-- The text of a finite double reads as a number that rounds to it. -/
theorem shortestText_reads {d : Float} {x : Double.Dyadic} (h : Double.dyadic? d = some x) :
    ∃ cs q, (shortestText d).toList = sign x.negative ++ cs ∧ Reads cs q ∧ RoundsTo q x := by
  have hcanonical := Double.canonical_of_dyadic? h
  unfold shortestText RoundsTo
  rw [h]
  dsimp only
  split
  · exact ⟨_, _, toList_signed _ _, reads_whole 0, Nat.cast_zero⟩
  · next hne =>
    have hcontains := shortest_contains hcanonical (Nat.pos_of_ne_zero hne)
    split
    · exact ⟨_, _, toList_signed _ _, reads_positional _ _, hcontains⟩
    · exact ⟨_, _, toList_signed _ _, reads_scientific _ _, hcontains⟩

theorem Reads.splitSign_eq {cs : List Char} {q : ℚ} (h : Reads cs q) (negative : Bool) :
    splitSign (sign negative ++ cs) = (negative, cs) := by
  obtain ⟨c, ds, rfl, hc⟩ := h.digit
  exact splitSign_sign_append hc

/-- The text of what is not finite reads as no number. -/
theorem not_reads_specialText (d : Float) (q : ℚ) : ¬Reads (splitSign (specialText d).toList).2 q := by
  rintro ⟨⟨c, cs, htext, hc⟩, -⟩
  unfold specialText at htext
  split at htext
  · cases htext
    cases hc
  · split at htext
    · cases htext
      cases hc
    · cases htext
      cases hc

theorem specialText_inj {a b : Float} (ha : Double.dyadic? a = none) (hb : Double.dyadic? b = none)
    (h : specialText a = specialText b) : a = b := by
  have htold : ∀ nan nan' negative negative' : Bool,
      (if nan then "NaN" else if negative then "-inf" else "inf") =
        (if nan' then "NaN" else if negative' then "-inf" else "inf") →
      nan = nan' ∧ (nan = false → negative = negative') := by decide
  obtain ⟨hnan, hsign⟩ := htold _ _ _ _ h
  cases hcase : a.isNaN with
  | true => exact Double.eq_of_isNaN hcase (hnan ▸ hcase)
  | false => exact Double.eq_of_infinite ha hb hcase (hnan ▸ hcase) (hsign hcase)

/-- The shortest text tells a double from all others. -/
theorem shortestText_inj {a b : Float} (h : shortestText a = shortestText b) : a = b := by
  have special : ∀ {d e : Float} {x : Double.Dyadic}, Double.dyadic? d = some x →
      Double.dyadic? e = none → shortestText d ≠ shortestText e := by
    intro d e x hd he htext
    obtain ⟨cs, q, hsigned, hreads, -⟩ := shortestText_reads hd
    have hsplit := hreads.splitSign_eq x.negative
    rw [← hsigned, htext, shortestText, he] at hsplit
    exact not_reads_specialText e q (by rw [hsplit]; exact hreads)
  cases ha : Double.dyadic? a with
  | none =>
    cases hb : Double.dyadic? b with
    | none =>
      rw [shortestText, shortestText, ha, hb] at h
      exact specialText_inj ha hb h
    | some y => exact absurd h.symm (special hb ha)
  | some x =>
    cases hb : Double.dyadic? b with
    | none => exact absurd h (special ha hb)
    | some y =>
      obtain ⟨cs, p, hsigned, hp, hx⟩ := shortestText_reads ha
      obtain ⟨cs', q, hsigned', hq, hy⟩ := shortestText_reads hb
      have hsplit := hp.splitSign_eq x.negative
      rw [← hsigned, h, hsigned', hq.splitSign_eq, Prod.mk.injEq] at hsplit
      obtain ⟨hnegative, rfl⟩ := hsplit
      cases hp.unique hq
      obtain ⟨hmantissa, hexponent⟩ :=
        hx.unique (Double.canonical_of_dyadic? ha) (Double.canonical_of_dyadic? hb) hy
      have hxy : x = y := by
        cases x
        cases y
        simp_all
      exact Double.eq_of_dyadic? ha (hxy ▸ hb)

/-! ## Characters -/

/-- A double is written as a decimal with a point or an exponent, or else as one of three words. -/
theorem shortestText_decimal (d : Float) :
    shortestText d ∈ ["NaN", "inf", "-inf"] ∨
      (∀ c ∈ (shortestText d).toList, isDecimal c = true) ∧
        ('.' ∈ (shortestText d).toList ∨ 'e' ∈ (shortestText d).toList) := by
  cases hd : Double.dyadic? d with
  | none =>
    left
    rw [shortestText, hd]
    show specialText d ∈ _
    unfold specialText
    split
    · simp
    · split <;> simp
  | some x =>
    right
    obtain ⟨cs, q, hsigned, hreads, -⟩ := shortestText_reads hd
    rw [hsigned]
    constructor
    · intro c hc
      rcases List.mem_append.mp hc with hc | hc
      · unfold sign at hc
        split at hc
        · cases List.mem_singleton.mp hc
          decide
        · cases hc
      · exact hreads.decimal c hc
    · exact hreads.marked.imp (List.mem_append_right _) (List.mem_append_right _)

end Decimal

end QueryPlan
