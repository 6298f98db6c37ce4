import QueryPlan.Expr.Monotonicity
import QueryPlan.Proofs.Execution.Ordering
/-!
# How values move

The movement of an expression is made of the movements of its operands, and the values of two rows
follow it if those of the operands do. That holds for integers, as long as arithmetic does not wrap
around, and for nulls that stand on one side of all integers: sums and products are null where an
operand is, and nulls stay on their side while the direction is reversed.
-/
namespace QueryPlan

namespace Value

/-- An integer or null. -/
def isWhole : Value → Bool
  | integer _ | null => true
  | _ => false

theorem eq_of_isWhole {v : Value} (h : v.isWhole = true) : v = null ∨ ∃ i, v = integer i := by
  cases v with
  | null => exact .inl rfl
  | integer i => exact .inr ⟨i, rfl⟩
  | _ => cases h

/-- Integers that rise, for the sign 1, or fall, for -1, and nulls on their side of all integers. -/
inductive Follows (nulls : NullPlacement) (sign : Int) : Value → Value → Prop
  | integers {i j : Int64} (le : sign * i.toInt ≤ sign * j.toInt) :
      Follows nulls sign (integer i) (integer j)
  | last {v : Value} (whole : v.isWhole = true) (placed : nulls ≠ .first) : Follows nulls sign v null
  | first {v : Value} (whole : v.isWhole = true) (placed : nulls = .first) : Follows nulls sign null v

namespace Follows

variable {nulls : NullPlacement} {sign : Int} {v w : Value}

theorem left (h : Follows nulls sign v w) : v.isWhole = true := by
  cases h with
  | integers | first => rfl
  | last hv => exact hv

theorem right (h : Follows nulls sign v w) : w.isWhole = true := by
  cases h with
  | integers | last => rfl
  | first hw => exact hw

theorem le {i j : Int64} (h : Follows nulls sign (integer i) (integer j)) :
    sign * i.toInt ≤ sign * j.toInt := by
  cases h with
  | integers hle => exact hle

theorem refl (h : v.isWhole = true) (nulls : NullPlacement) (sign : Int) : Follows nulls sign v v := by
  cases v with
  | integer i => exact .integers (Int.le_refl _)
  | null =>
    by_cases hplaced : nulls = .first
    · exact .first rfl hplaced
    · exact .last rfl hplaced
  | _ => cases h

end Follows

end Value

namespace FieldCollation

/-- Integers of the field rise for the sign 1 and fall for the sign -1. -/
def sign (fc : FieldCollation) : Int := if fc.direction.isDescending then -1 else 1

theorem orderValues_integers (fc : FieldCollation) (i j : Int64) :
    fc.orderValues (.integer i) (.integer j) = compare (fc.sign * i.toInt) (fc.sign * j.toInt) := by
  unfold orderValues sign
  cases fc.direction.isDescending with
  | false => simp only [Bool.false_eq_true, if_false, Int.one_mul]; rfl
  | true =>
    simp only [if_true, Int.neg_one_mul]
    exact (compare_neg j.toInt i.toInt).symm

theorem orderValues_null_right (fc : FieldCollation) {v : Value} (hv : v.isNull = false) :
    fc.orderValues v .null = if fc.nulls = .first then .gt else .lt := by
  unfold orderValues Value.orderNulls
  rw [hv]
  cases fc.nulls <;> cases fc.direction.isDescending <;> rfl

theorem orderValues_null_left (fc : FieldCollation) {v : Value} (hv : v.isNull = false) :
    fc.orderValues .null v = if fc.nulls = .first then .lt else .gt := by
  unfold orderValues Value.orderNulls
  rw [hv]
  cases fc.nulls <;> cases fc.direction.isDescending <;> rfl

/-- Nulls matter only where there are any. -/
theorem orderValues_congr {fc fc' : FieldCollation} {v w : Value} (hd : fc.direction = fc'.direction)
    (hnulls : v.isNull = false ∧ w.isNull = false ∨ (fc.nulls = .first ↔ fc'.nulls = .first)) :
    fc.orderValues v w = fc'.orderValues v w := by
  rcases hnulls with ⟨hv, hw⟩ | hnulls
  · unfold orderValues Value.orderNulls
    rw [hv, hw, hd]
  · have hcomparison : fc.nulls.nullComparison = fc'.nulls.nullComparison := by
      cases hn : fc.nulls <;> cases hn' : fc'.nulls <;> simp_all [NullPlacement.nullComparison]
    unfold orderValues
    rw [hcomparison, hd]

/-- Integers and nulls follow a field exactly if they are sorted by it. -/
theorem follows_iff (fc : FieldCollation) {v w : Value} (hv : v.isWhole = true)
    (hw : w.isWhole = true) : Value.Follows fc.nulls fc.sign v w ↔ fc.orderValues v w ≠ .gt := by
  rcases Value.eq_of_isWhole hv with rfl | ⟨i, rfl⟩ <;>
    rcases Value.eq_of_isWhole hw with rfl | ⟨j, rfl⟩
  · rw [fc.orderValues_self]
    exact iff_of_true (.refl rfl _ _) nofun
  · rw [fc.orderValues_null_left rfl]
    split
    · next hfirst => exact iff_of_true (.first rfl hfirst) nofun
    · next hfirst => exact iff_of_false (fun h => by cases h; exact hfirst ‹_›) (· rfl)
  · rw [fc.orderValues_null_right rfl]
    split
    · next hfirst => exact iff_of_false (fun h => by cases h; exact ‹fc.nulls ≠ _› hfirst) (· rfl)
    · next hfirst => exact iff_of_true (.last rfl hfirst) nofun
  · rw [fc.orderValues_integers, Ne, Int.compare_eq_gt, Int.not_lt]
    exact ⟨Value.Follows.le, .integers⟩

end FieldCollation

/-! ## Arithmetic that does not wrap around -/

namespace Op

/-- Arithmetic on all integers, quotients towards zero. -/
def onIntegers (op : Op) (i j : Int) : Int :=
  match op with
  | plus => i + j
  | minus => i - j
  | times => i * j
  | _ => i.tdiv j

theorem onIntegers_neg {op : Op} (hop : op = times ∨ op = divide) (i k : Int) :
    op.onIntegers i (-k) = -op.onIntegers i k := by
  rcases hop with rfl | rfl
  · exact Int.mul_neg i k
  · exact Int.tdiv_neg i k

/-- A positive factor or divisor keeps an order of integers and its reverse. -/
theorem onIntegers_le {op : Op} (hop : op = times ∨ op = divide) {s i j k : Int}
    (hs : s = 1 ∨ s = -1) (hk : 0 < k) (h : s * i ≤ s * j) :
    s * op.onIntegers i k ≤ s * op.onIntegers j k := by
  have hkeeps : ∀ {i j : Int}, i ≤ j → op.onIntegers i k ≤ op.onIntegers j k := by
    intro i j hij
    rcases hop with rfl | rfl
    · exact Int.mul_le_mul_of_nonneg_right hij (Int.le_of_lt hk)
    · exact Int.tdiv_le_tdiv hk hij
  rcases hs with rfl | rfl
  · rw [Int.one_mul, Int.one_mul] at h ⊢
    exact hkeeps h
  · rw [Int.neg_one_mul, Int.neg_one_mul] at h ⊢
    exact Int.neg_le_neg (hkeeps (Int.neg_le_neg_iff.mp h))

end Op

namespace Value

/-- The operands are integers and nulls, and arithmetic on them does not wrap around. -/
def isExact (op : Op) (v w : Value) : Bool :=
  match v, w with
  | integer i, integer j =>
    match op with
    | .plus => (i + j).toInt == i.toInt + j.toInt
    | .minus => (i - j).toInt == i.toInt - j.toInt
    | .times => (i * j).toInt == i.toInt * j.toInt
    | _ => true
  | v, w => v.isWhole && w.isWhole

variable {op : Op} {u v w : Value}

theorem isWhole_of_isExact (h : isExact op v w = true) : v.isWhole = true ∧ w.isWhole = true := by
  unfold isExact at h
  split at h
  · exact ⟨rfl, rfl⟩
  · exact Bool.and_eq_true_iff.mp h

theorem arithmetic_of_isNull (h : v.isNull = true ∨ w.isNull = true) :
    arithmetic op v w = .ok .null := by
  unfold arithmetic
  rw [if_pos (by rcases h with h | h <;> simp [h])]

/-- Exact arithmetic has the result of arithmetic on all integers. -/
theorem arithmetic_integers {i j : Int64} (hop : op.isArithmetic = true)
    (hexact : isExact op (integer i) (integer j) = true)
    (hu : arithmetic op (integer i) (integer j) = .ok u) :
    ∃ k, u = integer k ∧ k.toInt = op.onIntegers i.toInt j.toInt := by
  have hvalue : integerArithmetic op i j = .ok u := hu
  cases op with
  | plus | minus | times =>
    cases hvalue
    exact ⟨_, rfl, beq_iff_eq.mp hexact⟩
  | divide =>
    unfold integerArithmetic at hvalue
    dsimp only at hvalue
    split at hvalue
    · cases hvalue
    · split at hvalue
      · cases hvalue
      · next hfits =>
        cases hvalue
        refine ⟨_, rfl, ?_⟩
        by_cases hi : i = Int64.minValue
        · exact Int64.toInt_div_of_ne_right i j fun hj => hfits ⟨hi, hj⟩
        · exact Int64.toInt_div_of_ne_left i j hi
  | _ => cases hop

/-- Factors can be exchanged. -/
theorem times_comm (h : isExact .times v w = true) :
    isExact .times w v = true ∧ arithmetic .times v w = arithmetic .times w v := by
  obtain ⟨hv, hw⟩ := isWhole_of_isExact h
  rcases eq_of_isWhole hv with rfl | ⟨i, rfl⟩ <;> rcases eq_of_isWhole hw with rfl | ⟨j, rfl⟩
  · exact ⟨rfl, rfl⟩
  · exact ⟨rfl, rfl⟩
  · exact ⟨rfl, rfl⟩
  · have hexact : (i * j).toInt = i.toInt * j.toInt := beq_iff_eq.mp h
    refine ⟨beq_iff_eq.mpr ?_, congrArg (fun k => Except.ok (integer k)) (Int64.mul_comm i j)⟩
    rw [Int64.mul_comm, hexact, Int.mul_comm]

/-- A sign change is a difference. -/
theorem arithmetic_minus_zero (h : v.isWhole = true) :
    arithmetic .minus (integer 0) v = .ok v.opposite := by
  cases v with
  | null => rfl
  | integer i => exact congrArg (fun k => Except.ok (integer k)) (Int64.zero_sub i)
  | _ => cases h

theorem isWhole_arithmetic (hop : op.isArithmetic = true) (hexact : isExact op v w = true)
    (hu : arithmetic op v w = .ok u) : u.isWhole = true := by
  obtain ⟨hv, hw⟩ := isWhole_of_isExact hexact
  cases v with
  | null =>
    rw [arithmetic_of_isNull (.inl rfl)] at hu
    cases hu
    rfl
  | integer i =>
    cases w with
    | null =>
      rw [arithmetic_of_isNull (.inr rfl)] at hu
      cases hu
      rfl
    | integer j =>
      obtain ⟨k, rfl, -⟩ := arithmetic_integers hop hexact hu
      rfl
    | _ => cases hw
  | _ => cases hv

/-- Results follow one another if the operands do and the results for integers do. -/
theorem Follows.arithmetic {nulls : NullPlacement} {s s₁ s₂ : Int} {v₁ v₂ w₁ w₂ : Value}
    (hop : op.isArithmetic = true)
    (hv : arithmetic op v₁ v₂ = .ok v) (hw : arithmetic op w₁ w₂ = .ok w)
    (hev : isExact op v₁ v₂ = true) (hew : isExact op w₁ w₂ = true)
    (h₁ : Follows nulls s₁ v₁ w₁) (h₂ : Follows nulls s₂ v₂ w₂)
    (hle : ∀ i i' j j', v₁ = integer i → v₂ = integer i' → w₁ = integer j → w₂ = integer j' →
      s * op.onIntegers i.toInt i'.toInt ≤ s * op.onIntegers j.toInt j'.toInt) :
    Follows nulls s v w := by
  have hlast : w₁.isNull = true ∨ w₂.isNull = true → nulls ≠ .first → Follows nulls s v w := by
    intro hnull hplaced
    rw [arithmetic_of_isNull hnull] at hw
    cases hw
    exact .last (isWhole_arithmetic hop hev hv) hplaced
  have hfirst : v₁.isNull = true ∨ v₂.isNull = true → nulls = .first → Follows nulls s v w := by
    intro hnull hplaced
    rw [arithmetic_of_isNull hnull] at hv
    cases hv
    exact .first (isWhole_arithmetic hop hew hw) hplaced
  cases h₁ with
  | last _ hplaced => exact hlast (.inl rfl) hplaced
  | first _ hplaced => exact hfirst (.inl rfl) hplaced
  | @integers i j _ =>
    cases h₂ with
    | last _ hplaced => exact hlast (.inr rfl) hplaced
    | first _ hplaced => exact hfirst (.inr rfl) hplaced
    | @integers i' j' _ =>
      obtain ⟨k, rfl, hk⟩ := arithmetic_integers hop hev hv
      obtain ⟨l, rfl, hl⟩ := arithmetic_integers hop hew hw
      refine .integers ?_
      rw [hk, hl]
      exact hle i i' j j' rfl rfl rfl rfl

end Value

namespace Monotonicity

/-- The sign of a movement, if it is one. -/
def sign? : Monotonicity → Option Int
  | strictlyIncreasing | increasing => some 1
  | strictlyDecreasing | decreasing => some (-1)
  | constant | notMonotonic => none

theorem sign_eq_one_or {m : Monotonicity} {s : Int} (h : m.sign? = some s) : s = 1 ∨ s = -1 := by
  cases m <;> cases h <;> decide

theorem sign?_reverse (m : Monotonicity) : m.reverse.sign? = m.sign?.map (- ·) := by cases m <;> rfl

theorem reverse_eq_constant {m : Monotonicity} : m.reverse = constant ↔ m = constant := by
  cases m <;> decide

/-- Nothing moves against the sign of the movement. -/
def Along (m : Monotonicity) (s : Int) : Prop := m = constant ∨ m.sign? = some s

theorem along_of_sum {m m' : Monotonicity} {s : Int} (h : (m.sum m').sign? = some s) :
    m.Along s ∧ m'.Along s := by
  unfold Along
  cases m <;> cases m' <;> cases h <;> decide

theorem constant_of_sum {m m' : Monotonicity} (h : m.sum m' = constant) :
    m = constant ∧ m' = constant := by
  cases m <;> cases m' <;> first | exact ⟨rfl, rfl⟩ | cases h

/-- Two values that follow one another move like this: in the direction of the movement, nulls on the
given side; or not at all, if the movement is constant. -/
def Moves (nulls : NullPlacement) (m : Monotonicity) (v w : Value) : Prop :=
  match Direction.ofMonotonicity? m with
  | some d => (FieldCollation.mk 0 d nulls).orderValues v w ≠ .gt
  | none => m = constant → v = w

variable {nulls : NullPlacement} {m m' : Monotonicity} {s : Int} {v w : Value}

theorem sign?_eq_some (nulls : NullPlacement) (h : m.sign? = some s) :
    ∃ d, Direction.ofMonotonicity? m = some d ∧
    (FieldCollation.mk 0 d nulls).sign = s := by
  cases m <;> cases h <;> exact ⟨_, rfl, rfl⟩

theorem sign?_of_direction (nulls : NullPlacement) {d : Direction}
    (h : Direction.ofMonotonicity? m = some d) :
    m.sign? = some (FieldCollation.mk 0 d nulls).sign := by
  cases m <;> cases h <;> rfl

theorem moves_self (nulls : NullPlacement) (m : Monotonicity) (v : Value) : m.Moves nulls v v := by
  unfold Moves
  split
  · rw [FieldCollation.orderValues_self]
    nofun
  · exact fun _ => rfl

/-- The values of a field move like the field. -/
theorem moves_of_orderValues {fc : FieldCollation} (h : fc.orderValues v w ≠ .gt)
    (hnulls : v.isNull = false ∧ w.isNull = false ∨ (fc.nulls = .first ↔ nulls = .first)) :
    fc.direction.monotonicity.Moves nulls v w := by
  have horder : ∀ d, fc.direction = d → (FieldCollation.mk 0 d nulls).orderValues v w ≠ .gt := by
    intro d hd
    have heq : fc.orderValues v w = (FieldCollation.mk 0 d nulls).orderValues v w :=
      FieldCollation.orderValues_congr hd hnulls
    rwa [← heq]
  cases hd : fc.direction with
  | clustered => nofun
  | _ => exact horder _ hd

theorem Moves.unstrict (h : m.Moves nulls v w) : m.unstrict.Moves nulls v w := by
  cases m with
  | constant => exact fun _ => h rfl
  | notMonotonic => nofun
  | _ => exact h

theorem Moves.follows (h : m.Moves nulls v w) (hm : m.Along s) (hv : v.isWhole = true)
    (hw : w.isWhole = true) : Value.Follows nulls s v w := by
  rcases hm with rfl | hsign
  · rw [show v = w from h rfl]
    exact .refl hw nulls s
  · obtain ⟨d, hd, rfl⟩ := sign?_eq_some nulls hsign
    unfold Moves at h
    rw [hd] at h
    exact (FieldCollation.follows_iff ⟨0, d, nulls⟩ hv hw).mpr h

theorem moves_of_follows (hconstant : m = constant → v = w)
    (hsign : ∀ s, m.sign? = some s → Value.Follows nulls s v w) : m.Moves nulls v w := by
  unfold Moves
  split
  · next d hd =>
    have hfollows := hsign _ (sign?_of_direction nulls hd)
    exact (FieldCollation.follows_iff ⟨0, d, nulls⟩ hfollows.left hfollows.right).mp hfollows
  · exact hconstant

/-! ## Movements of results -/

section

open Value

variable {op : Op} {v₁ v₂ w₁ w₂ : Value}

/-- Sums move like their operands. -/
theorem Moves.plus (h : m.Moves nulls v₁ w₁) (h' : m'.Moves nulls v₂ w₂)
    (hv : arithmetic .plus v₁ v₂ = .ok v) (hw : arithmetic .plus w₁ w₂ = .ok w)
    (hev : isExact .plus v₁ v₂ = true) (hew : isExact .plus w₁ w₂ = true) :
    (m.sum m').Moves nulls v w := by
  obtain ⟨hv₁, hv₂⟩ := isWhole_of_isExact hev
  obtain ⟨hw₁, hw₂⟩ := isWhole_of_isExact hew
  refine moves_of_follows (fun hm => ?_) fun s hs => ?_
  · obtain ⟨rfl, rfl⟩ := constant_of_sum hm
    rw [show v₁ = w₁ from h rfl, show v₂ = w₂ from h' rfl, hw] at hv
    cases hv
    rfl
  · obtain ⟨hm, hm'⟩ := along_of_sum hs
    have hf := h.follows hm hv₁ hw₁
    have hf' := h'.follows hm' hv₂ hw₂
    refine .arithmetic rfl hv hw hev hew hf hf' ?_
    rintro i i' j j' rfl rfl rfl rfl
    have hle := hf.le
    have hle' := hf'.le
    show s * (i.toInt + i'.toInt) ≤ s * (j.toInt + j'.toInt)
    rw [Int.mul_add, Int.mul_add]
    omega

/-- Differences move like the first operand and against the second. -/
theorem Moves.minus (h : m.Moves nulls v₁ w₁) (h' : m'.Moves nulls v₂ w₂)
    (hv : arithmetic .minus v₁ v₂ = .ok v) (hw : arithmetic .minus w₁ w₂ = .ok w)
    (hev : isExact .minus v₁ v₂ = true) (hew : isExact .minus w₁ w₂ = true) :
    (m.sum m'.reverse).Moves nulls v w := by
  obtain ⟨hv₁, hv₂⟩ := isWhole_of_isExact hev
  obtain ⟨hw₁, hw₂⟩ := isWhole_of_isExact hew
  refine moves_of_follows (fun hm => ?_) fun s hs => ?_
  · obtain ⟨rfl, hm'⟩ := constant_of_sum hm
    cases reverse_eq_constant.mp hm'
    rw [show v₁ = w₁ from h rfl, show v₂ = w₂ from h' rfl, hw] at hv
    cases hv
    rfl
  · obtain ⟨hm, hm'⟩ := along_of_sum hs
    have halong : m'.Along (-s) := by
      rcases hm' with hm' | hm'
      · exact .inl (reverse_eq_constant.mp hm')
      · rw [sign?_reverse, Option.map_eq_some_iff] at hm'
        obtain ⟨s', hs', rfl⟩ := hm'
        exact .inr (by rw [hs', Int.neg_neg])
    have hf := h.follows hm hv₁ hw₁
    have hf' := h'.follows halong hv₂ hw₂
    refine .arithmetic rfl hv hw hev hew hf hf' ?_
    rintro i i' j j' rfl rfl rfl rfl
    have hle := hf.le
    have hle' := hf'.le
    rw [Int.neg_mul, Int.neg_mul] at hle'
    show s * (i.toInt - i'.toInt) ≤ s * (j.toInt - j'.toInt)
    rw [Int.mul_sub, Int.mul_sub]
    omega

/-- Products with a factor move like the other one or against it, and do not move if it is zero;
likewise quotients by it. -/
theorem Moves.scaled {u : Value} {o : Ordering} (h : m.Moves nulls v₁ w₁)
    (hop : op = .times ∨ op = .divide) (hsign : ∀ k, u = integer k → compare k.toInt 0 = o)
    (hzero : o = .eq → op = .times ∧ v₁.isNull = false ∧ w₁.isNull = false ∧ u.isNull = false)
    (hv : arithmetic op v₁ u = .ok v) (hw : arithmetic op w₁ u = .ok w)
    (hev : isExact op v₁ u = true) (hew : isExact op w₁ u = true) :
    (m.scaled o).Moves nulls v w := by
  have harithmetic : op.isArithmetic = true := by rcases hop with rfl | rfl <;> rfl
  obtain ⟨hv₁, hu⟩ := isWhole_of_isExact hev
  obtain ⟨hw₁, -⟩ := isWhole_of_isExact hew
  have hconstant : m = constant → v = w := by
    rintro rfl
    rw [show v₁ = w₁ from h rfl, hw] at hv
    cases hv
    rfl
  cases o with
  | gt =>
    refine moves_of_follows hconstant fun s hs => ?_
    have hf := h.follows (.inr hs) hv₁ hw₁
    refine .arithmetic harithmetic hv hw hev hew hf (.refl hu nulls s) ?_
    rintro i k j k' rfl rfl rfl ⟨⟩
    exact Op.onIntegers_le hop (sign_eq_one_or hs) (Int.compare_eq_gt.mp (hsign k rfl)) hf.le
  | lt =>
    refine moves_of_follows (fun hm => hconstant (reverse_eq_constant.mp hm)) fun s hs => ?_
    obtain ⟨s', hs', rfl⟩ := Option.map_eq_some_iff.mp ((sign?_reverse m).symm.trans hs)
    have hf := h.follows (.inr hs') hv₁ hw₁
    refine .arithmetic harithmetic hv hw hev hew hf (.refl hu nulls s') ?_
    rintro i k j k' rfl rfl rfl ⟨⟩
    have hk : 0 < -k.toInt := Int.neg_pos_of_neg (Int.compare_eq_lt.mp (hsign k rfl))
    have hle := Op.onIntegers_le hop (sign_eq_one_or hs') hk hf.le
    rwa [Op.onIntegers_neg hop, Op.onIntegers_neg hop, Int.mul_neg, Int.mul_neg, ← Int.neg_mul,
      ← Int.neg_mul] at hle
  | eq =>
    obtain ⟨rfl, hvn, hwn, hun⟩ := hzero rfl
    have hinteger : ∀ x : Value, x.isWhole = true → x.isNull = false → ∃ i, x = integer i :=
      fun x hx hxn => (eq_of_isWhole hx).resolve_left fun h => by rw [h] at hxn; cases hxn
    obtain ⟨i, rfl⟩ := hinteger v₁ hv₁ hvn
    obtain ⟨j, rfl⟩ := hinteger w₁ hw₁ hwn
    obtain ⟨k, rfl⟩ := hinteger u hu hun
    obtain ⟨p, rfl, hp⟩ := arithmetic_integers rfl hev hv
    obtain ⟨q, rfl, hq⟩ := arithmetic_integers rfl hew hw
    have hk : k.toInt = 0 := Int.compare_eq_eq.mp (hsign k rfl)
    rw [hk] at hp hq
    have hpq : p.toInt = q.toInt := by
      rw [hp, hq]
      exact (Int.mul_zero i.toInt).trans (Int.mul_zero j.toInt).symm
    exact fun _ => congrArg integer (Int64.toInt_inj.mp hpq)

end

end Monotonicity

end QueryPlan
