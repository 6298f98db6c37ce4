import Mathlib.Algebra.Order.Field.Power
import Mathlib.Data.Rat.Cast.Order
import Mathlib.Tactic.Linarith
import Mathlib.Tactic.Positivity
import Mathlib.Tactic.Ring
import QueryPlan.Decimal.Spelling
import QueryPlan.Decimal.Text
import QueryPlan.Proofs.Text
/-!
# Reading what was written

The two texts of a decimal, with an exponent and without one, are taken apart into digits and an
exponent that stand for the same number.
-/
namespace QueryPlan.Decimal

/-! ## Digits -/

/-- All of the characters are digits. -/
def AllDigits (cs : List Char) : Prop := ∀ c ∈ cs, c.isDigit = true

theorem allDigits_toString (n : Nat) : AllDigits (toString n).toList :=
  fun _ => Text.isDigit_of_mem_toString_nat

theorem AllDigits.append {cs ds : List Char} (hc : AllDigits cs) (hd : AllDigits ds) :
    AllDigits (cs ++ ds) := by
  intro c h
  rcases List.mem_append.mp h with h | h
  · exact hc c h
  · exact hd c h

/-- A text of digits does not begin with a character that is no digit. -/
theorem AllDigits.ne {cs : List Char} (h : AllDigits cs) {x : Char} (hx : x.isDigit = false) :
    ∀ c ∈ cs, c ≠ x := by
  rintro c hc rfl
  rw [h c hc] at hx
  cases hx

theorem ofDigitChars_toString (n : Nat) : Nat.ofDigitChars 10 (toString n).toList 0 = n := by
  rw [Text.toList_toString_nat]
  exact Nat.ofDigitChars_ten_toDigits

theorem digits?_eq {cs : List Char} (h : AllDigits cs) : digits? cs = some (Nat.ofDigitChars 10 cs 0) := by
  have general : ∀ n, cs.foldl
      (fun acc c => acc.bind fun n => if c.isDigit then some (n * 10 + digitValue c) else none)
      (some n) = some (Nat.ofDigitChars 10 cs n) := by
    induction cs with
    | nil => exact fun n => rfl
    | cons c cs ih =>
      intro n
      rw [List.foldl_cons, Option.bind_some, if_pos (h c List.mem_cons_self),
        ih fun d hd => h d (List.mem_cons_of_mem _ hd), Nat.ofDigitChars_cons, Nat.mul_comm]
      rfl
  exact general 0

/-! ## Signs -/

/-- Digits are not taken for a sign. -/
theorem splitSign_of_isDigit {c : Char} {cs : List Char} (h : c.isDigit = true) :
    splitSign (c :: cs) = (false, c :: cs) := by
  unfold splitSign
  split
  · next heq => cases heq; simp at h
  · next heq => cases heq; simp at h
  · rfl

/-- The sign that is written before a number. -/
def sign (negative : Bool) : List Char := if negative then ['-'] else []

theorem toList_signed (negative : Bool) (text : String) :
    (signed negative text).toList = sign negative ++ text.toList := by
  cases negative with
  | true => exact String.toList_append
  | false => rfl

theorem splitSign_sign_append {negative : Bool} {c : Char} {cs : List Char} (h : c.isDigit = true) :
    splitSign (sign negative ++ c :: cs) = (negative, c :: cs) := by
  cases negative with
  | true => rfl
  | false => exact splitSign_of_isDigit h

theorem exponent?_toString (n : Int) : exponent? (some (toString n).toList) = some n := by
  have natural : ∀ n : Nat, (toString n).toList.isEmpty = false ∧
      digits? (toString n).toList = some n := fun n =>
    ⟨List.isEmpty_eq_false_iff.mpr (Text.toString_nat_ne_nil n), by
      rw [digits?_eq (allDigits_toString n), ofDigitChars_toString]⟩
  cases n with
  | ofNat n =>
    show exponent? (some (toString n).toList) = _
    have hsplit : splitSign (toString n).toList = (false, (toString n).toList) := by
      have hdigits := allDigits_toString n
      cases htext : (toString n).toList with
      | nil => exact absurd htext (Text.toString_nat_ne_nil n)
      | cons c cs => exact splitSign_of_isDigit (hdigits c (by rw [htext]; exact List.mem_cons_self))
    simp only [exponent?, hsplit, natural n]
    simp
  | negSucc n =>
    show exponent? (some ("-" ++ toString (n + 1)).toList) = _
    have hsplit : splitSign ("-" ++ toString (n + 1)).toList = (true, (toString (n + 1)).toList) := by
      rw [String.toList_append]
      rfl
    simp only [exponent?, hsplit, natural (n + 1)]
    simp
    omega

/-! ## Parts of a text -/

/-- What stands after a separating character, if it is there. -/
def after (x : Char) (rest : Option (List Char)) : List Char := (rest.map (x :: ·)).getD []

theorem splitFirst_append {p : Char → Bool} {cs : List Char} {x : Char} (rest : Option (List Char))
    (h : ∀ c ∈ cs, p c = false) (hx : p x = true) :
    splitFirst p (cs ++ after x rest) = (cs, rest) := by
  have hall : ∀ c ∈ cs, (!p c) = true := fun c hc => by simp [h c hc]
  unfold splitFirst
  rw [List.dropWhile_append_of_pos hall, List.takeWhile_append_of_pos hall]
  cases rest with
  | none => simp [after]
  | some rest => simp [after, hx]

namespace Spelling

/-- The number that is spelled. -/
def value (s : Spelling) : ℚ := s.digits * 10 ^ (s.exponent - s.fraction.length)

theorem digits_eq (s : Spelling) : s.digits = Nat.ofDigitChars 10 (s.whole ++ s.fraction) 0 := by
  unfold digits Nat.ofDigitChars
  congr 1
  funext n c
  rw [Nat.mul_comm]
  rfl

/-- A text is taken apart into what stands before and after its point and its exponent. -/
theorem of?_eq {whole : List Char} {fraction power : Option (List Char)} {n : Int}
    (hwhole : AllDigits whole) (hne : whole ≠ []) (hfraction : AllDigits (fraction.getD []))
    (hpower : exponent? power = some n) :
    of? (whole ++ after '.' fraction ++ after 'e' power) = some ⟨whole, fraction.getD [], n⟩ := by
  have hbase : ∀ c ∈ whole ++ after '.' fraction, (decide (c = 'e') || decide (c = 'E')) = false := by
    intro c hc
    rw [Bool.or_eq_false_iff, decide_eq_false_iff_not, decide_eq_false_iff_not]
    rcases List.mem_append.mp hc with hc | hc
    · exact ⟨hwhole.ne (by decide) c hc, hwhole.ne (by decide) c hc⟩
    · cases fraction with
      | none => cases hc
      | some cs =>
        rcases List.mem_cons.mp hc with rfl | hc
        · decide
        · exact ⟨hfraction.ne (by decide) c hc, hfraction.ne (by decide) c hc⟩
  have hexponent := splitFirst_append (x := 'e') power hbase (by decide)
  have hpoint := splitFirst_append (p := fun c => decide (c = '.')) (x := '.') fraction
    (fun c hc => decide_eq_false (hwhole.ne (by decide) c hc)) (by decide)
  have hall : (whole ++ fraction.getD []).all Char.isDigit = true :=
    List.all_eq_true.mpr (hwhole.append hfraction)
  have hempty : whole.isEmpty = false := List.isEmpty_eq_false_iff.mpr hne
  simp only [of?, hexponent, hpoint, hempty, hall, hpower]
  rfl

end Spelling

/-! ## Texts of a decimal -/

/-- The characters of decimals. -/
def isDecimal (c : Char) : Bool := c.isDigit || c = '-' || c = '.' || c = 'e'

/-- A text that begins with a digit and has a point or an exponent reads as a number. -/
structure Reads (cs : List Char) (q : ℚ) : Prop where
  digit : ∃ c ds, cs = c :: ds ∧ c.isDigit = true
  decimal : ∀ c ∈ cs, isDecimal c = true
  marked : '.' ∈ cs ∨ 'e' ∈ cs
  spelled : ∃ s, Spelling.of? cs = some s ∧ s.value = q

theorem isDecimal_of_mem_toString {n : Int} {c : Char} (h : c ∈ (toString n).toList) :
    c.isDigit = true ∨ c = '-' := by
  cases n with
  | ofNat n => exact .inl (allDigits_toString n c h)
  | negSucc n =>
    rw [show (toString (Int.negSucc n)).toList = '-' :: (toString (n + 1)).toList from
      String.toList_append] at h
    rcases List.mem_cons.mp h with rfl | h
    · exact .inr rfl
    · exact .inl (allDigits_toString (n + 1) c h)

theorem Reads.of_parts {whole : List Char} (fraction : Option (List Char)) (power : Option Int)
    (hwhole : AllDigits whole) (hne : whole ≠ []) (hfraction : AllDigits (fraction.getD []))
    (hmarked : fraction.isSome = true ∨ power.isSome = true) :
    Reads (whole ++ after '.' fraction ++ after 'e' (power.map fun n => (toString n).toList))
      (Nat.ofDigitChars 10 (whole ++ fraction.getD []) 0 *
        10 ^ (power.getD 0 - (fraction.getD []).length)) where
  digit := by
    cases whole with
    | nil => exact absurd rfl hne
    | cons c cs => exact ⟨c, _, rfl, hwhole c List.mem_cons_self⟩
  decimal := by
    have digits : ∀ cs, AllDigits cs → ∀ c ∈ cs, isDecimal c = true := fun cs h c hc => by
      simp [isDecimal, h c hc]
    intro c hc
    rcases List.mem_append.mp hc with hc | hc
    · rcases List.mem_append.mp hc with hc | hc
      · exact digits whole hwhole c hc
      · cases fraction with
        | none => cases hc
        | some cs =>
          rcases List.mem_cons.mp hc with rfl | hc
          · decide
          · exact digits cs hfraction c hc
    · cases power with
      | none => cases hc
      | some n =>
        rcases List.mem_cons.mp hc with rfl | hc
        · decide
        · rcases isDecimal_of_mem_toString hc with hc | rfl
          · simp [isDecimal, hc]
          · decide
  marked := by
    rcases hmarked with h | h
    · obtain ⟨cs, rfl⟩ := Option.isSome_iff_exists.mp h
      exact .inl (by simp [after])
    · obtain ⟨n, rfl⟩ := Option.isSome_iff_exists.mp h
      exact .inr (by simp [after])
  spelled := by
    have hpower : exponent? (power.map fun n => (toString n).toList) = some (power.getD 0) := by
      cases power with
      | none => rfl
      | some n => exact exponent?_toString n
    exact ⟨_, Spelling.of?_eq hwhole hne hfraction hpower, by rw [Spelling.value, Spelling.digits_eq]⟩

/-- A number is read from one text in one way. -/
theorem Reads.unique {cs : List Char} {p q : ℚ} (hp : Reads cs p) (hq : Reads cs q) : p = q := by
  obtain ⟨s, hs, rfl⟩ := hp.spelled
  obtain ⟨s', hs', rfl⟩ := hq.spelled
  rw [hs] at hs'
  cases hs'
  rfl

theorem length_toString_le {n k : Nat} (hk : 0 < k) (h : n < 10 ^ k) : (toString n).length ≤ k := by
  rw [← String.length_toList, Text.toList_toString_nat]
  exact (Nat.length_toDigits_le_iff (by decide) hk).mpr h

theorem toList_padded {n k : Nat} :
    (padded n k).toList = List.replicate (k - (toString n).length) '0' ++ (toString n).toList := by
  simp [padded]

theorem ofDigitChars_padded (n k : Nat) : Nat.ofDigitChars 10 (padded n k).toList 0 = n := by
  rw [toList_padded, Nat.ofDigitChars_append, Nat.ofDigitChars_replicate_zero, Nat.mul_zero,
    ofDigitChars_toString]

theorem length_padded {n k : Nat} (hk : 0 < k) (h : n < 10 ^ k) : (padded n k).toList.length = k := by
  have := length_toString_le hk h
  rw [toList_padded, List.length_append, List.length_replicate, String.length_toList]
  omega

theorem allDigits_padded (n k : Nat) : AllDigits (padded n k).toList := by
  rw [toList_padded]
  refine AllDigits.append ?_ (allDigits_toString n)
  intro c hc
  rw [List.eq_of_mem_replicate hc]
  rfl

theorem reads_whole (n : Nat) : Reads (toString n ++ ".0").toList n := by
  have hparts := Reads.of_parts (some ['0']) none (allDigits_toString n) (Text.toString_nat_ne_nil n)
    (by simp [AllDigits]) (.inl rfl)
  have hdigits : Nat.ofDigitChars 10 ((toString n).toList ++ ['0']) 0 = 10 * n := by
    rw [Nat.ofDigitChars_append, ofDigitChars_toString]
    rfl
  have hvalue : ((10 * n : Nat) : ℚ) * 10 ^ ((0 : Int) - (1 : Nat)) = n := by
    push_cast
    norm_num
    ring
  rw [Option.getD_some, Option.getD_none, hdigits, List.length_singleton, hvalue] at hparts
  rw [String.toList_append]
  simpa [after] using hparts

theorem reads_fraction (n : Nat) {k : Nat} (hk : 0 < k) :
    Reads (toString (n / 10 ^ k) ++ "." ++ padded (n % 10 ^ k) k).toList (n * 10 ^ (-(k : Int))) := by
  have hparts := Reads.of_parts (some (padded (n % 10 ^ k) k).toList) none (allDigits_toString (n / 10 ^ k))
    (Text.toString_nat_ne_nil _) (allDigits_padded _ _) (.inl rfl)
  have hlength := length_padded hk (Nat.mod_lt n (Nat.pow_pos (by decide)))
  have hdigits : Nat.ofDigitChars 10
      ((toString (n / 10 ^ k)).toList ++ (padded (n % 10 ^ k) k).toList) 0 = n := by
    rw [Nat.ofDigitChars_append, ofDigitChars_toString, Nat.ofDigitChars_eq_ofDigitChars_zero,
      ofDigitChars_padded, hlength]
    exact Nat.div_add_mod n _
  rw [Option.getD_some, Option.getD_none, hdigits, hlength, zero_sub] at hparts
  rw [String.toList_append, String.toList_append]
  simpa [after] using hparts

theorem reads_positional (digits : Nat) (place : Int) :
    Reads (positional digits place).toList (digits * 10 ^ place) := by
  unfold positional
  split
  · next h =>
    have hpow : (10 : ℚ) ^ place = 10 ^ place.toNat := by
      rw [← zpow_natCast, Int.toNat_of_nonneg h]
    have hwhole := reads_whole (digits * Nat.pow 10 place.toNat)
    rw [Nat.pow_eq, Nat.cast_mul, Nat.cast_pow, Nat.cast_ofNat, ← hpow] at hwhole
    exact hwhole
  · next h =>
    have hplace : -((-place).toNat : Int) = place := by omega
    have hfraction := reads_fraction digits (k := (-place).toNat) (by omega)
    rw [hplace] at hfraction
    exact hfraction

theorem reads_scientific (digits : Nat) (place : Int) :
    Reads (scientific digits place).toList (digits * 10 ^ place) := by
  have hdigits := allDigits_toString digits
  have hvalue := ofDigitChars_toString digits
  have hne := Text.toString_nat_ne_nil digits
  unfold scientific scientificDigits
  dsimp only
  rw [← String.length_toList, String.toList_append, String.toList_append]
  generalize (toString digits).toList = text at *
  generalize hpower : place + (text.length : Int) - 1 = power
  cases text with
  | nil => exact absurd rfl hne
  | cons c cs =>
    cases cs with
    | nil =>
      have hparts := Reads.of_parts none (some power) hdigits hne (by simp [AllDigits]) (.inr rfl)
      have hplace : power - (([] : List Char).length : Int) = place := by
        simp only [List.length_cons, List.length_nil] at hpower ⊢
        omega
      rw [Option.getD_none, Option.getD_some, List.append_nil, hvalue, hplace] at hparts
      simpa [after] using hparts
    | cons d ds =>
      rw [← List.singleton_append] at hdigits hvalue
      have hparts := Reads.of_parts (some (d :: ds)) (some power)
        (fun x hx => hdigits x (List.mem_append_left _ hx)) (List.cons_ne_nil c [])
        (fun x hx => hdigits x (List.mem_append_right _ hx)) (.inl rfl)
      have hplace : power - ((d :: ds).length : Int) = place := by
        simp only [List.length_cons] at hpower ⊢
        omega
      rw [Option.getD_some, Option.getD_some, hvalue, hplace] at hparts
      simpa [after] using hparts

end QueryPlan.Decimal
