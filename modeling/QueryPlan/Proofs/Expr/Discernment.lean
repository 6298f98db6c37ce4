import QueryPlan.Proofs.Decimal.Magnitude
import QueryPlan.Proofs.Expr.Alike
import QueryPlan.Proofs.Expr.Casts
/-!
# Values of equal expressions

Expressions are equal if they differ at most in literals of equal value, and an integer equals the double of
its value. Most calls make equal values of equal operands. Some do not: an integer and its double have
different texts, arithmetic on two integers wraps around and divides without fractions, and integers beyond
two to the 53rd lose digits as doubles, and so may change their order. What an operator looks at besides the
values of its operands as numbers is a single truth value, and equal expressions have equal values if it is
the same in all their calls. Types see to that, but for texts of literals and for great literals.
-/
namespace QueryPlan

namespace Value

def isInteger : Value → Bool
  | integer _ => true
  | _ => false

/-- Whether an integer is another one after it was a double. -/
def losesDigits : Value → Bool
  | integer i => Double.toInt64 (Double.ofInt64 i) != i
  | _ => false

/-- Whether two integers have another order as doubles. -/
def losesOrder : Value → Value → Bool
  | integer i, integer j => Double.order (Double.ofInt64 i) (Double.ofInt64 j) != compare i.toInt j.toInt
  | _, _ => false

/-- The same value, or an integer and its double. -/
inductive Twin : Value → Value → Prop
  | same (v : Value) : Twin v v
  | toDouble (i : Int64) : Twin (integer i) (double (Double.ofInt64 i))
  | ofDouble (i : Int64) : Twin (double (Double.ofInt64 i)) (integer i)

variable {v v' w w' : Value} {op : Op} {t : DataType}

theorem twin_of_compare (h : compare v w = .eq) : Twin v w := by
  by_cases htype : v.dataType = w.dataType
  · rw [eq_of_dataType htype h]
    exact .same w
  · cases v <;> cases w <;> try first | exact absurd rfl htype | cases h
    case integer.double i d =>
      rw [← Double.eq_of_order (show Double.order (Double.ofInt64 i) d = .eq from h)]
      exact .toDouble i
    case double.integer d i =>
      rw [Double.eq_of_order (show Double.order d (Double.ofInt64 i) = .eq from h)]
      exact .ofDouble i

theorem Twin.compare_eq (h : Twin v w) : compare v w = .eq := by
  cases h with
  | same => exact compare_self v
  | toDouble i | ofDouble i => exact compare_self (double (Double.ofInt64 i))

end Value

namespace Outcome

open Value (Twin)

/-- Both have a value, and their values are equal, or neither has one, and both break off or none does. -/
inductive Agree : Outcome → Outcome → Prop
  | ok {v v' : Value} : compare v v' = .eq → Agree (.ok v) (.ok v')
  | error {e e' : EvalError} : e.isFault = e'.isFault → Agree (.error e) (.error e')

theorem Agree.refl (o : Outcome) : Agree o o := by
  cases o with
  | ok v => exact .ok v.compare_self
  | error e => exact .error rfl

theorem agree_of_twin {v w : Value} (h : Twin v w) : Agree (.ok v) (.ok w) := .ok h.compare_eq

variable {o o' : Outcome} {os os' : List Outcome}

theorem Agree.bind {f f' : Value → Outcome} (h : Agree o o')
    (hf : ∀ v v', o = .ok v → o' = .ok v' → Twin v v' → Agree (f v) (f' v')) :
    Agree (o >>= f) (o' >>= f') := by
  cases h with
  | error h => exact .error h
  | ok h => exact hf _ _ rfl rfl (Value.twin_of_compare h)

theorem Agree.map {f : Value → Value} (h : Agree o o')
    (hf : ∀ v v', o = .ok v → o' = .ok v' → Twin v v' → compare (f v) (f v') = .eq) :
    Agree (f <$> o) (f <$> o') := by
  cases h with
  | error h => exact .error h
  | ok h => exact .ok (hf _ _ rfl rfl (Value.twin_of_compare h))

theorem agree_operand (h : List.Forall₂ Agree os os') (i : Nat) :
    Agree (operand os i) (operand os' i) := by
  unfold operand
  induction h generalizing i with
  | nil => exact .refl _
  | cons ho _ ih =>
    cases i with
    | zero => exact ho
    | succ i => exact ih i

theorem agree_allOf (h : List.Forall₂ Agree os os') (unknown : Bool) :
    Agree (allOf unknown os) (allOf unknown os') := by
  induction h generalizing unknown with
  | nil => exact .refl _
  | cons ho _ ih =>
    cases ho with
    | error h => exact .error h
    | @ok v _ h =>
      cases Value.twin_of_compare h with
      | same =>
        cases v with
        | boolean b => cases b <;> first | exact ih unknown | exact .refl _
        | null => exact ih true
        | _ => exact ih unknown
      | _ => exact ih unknown

theorem agree_anyOf (h : List.Forall₂ Agree os os') (unknown : Bool) :
    Agree (anyOf unknown os) (anyOf unknown os') := by
  induction h generalizing unknown with
  | nil => exact .refl _
  | cons ho _ ih =>
    cases ho with
    | error h => exact .error h
    | @ok v _ h =>
      cases Value.twin_of_compare h with
      | same =>
        cases v with
        | boolean b => cases b <;> first | exact ih unknown | exact .refl _
        | null => exact ih true
        | _ => exact ih unknown
      | _ => exact ih unknown

/-- The value of an operand, null if there is none. -/
def valueAt (os : List Outcome) (i : Nat) : Value := (operand os i).toOption.getD .null

theorem valueAt_of_operand {i : Nat} {v : Value} (h : operand os i = .ok v) : valueAt os i = v := by
  rw [valueAt, h]
  rfl

end Outcome

open Value (Twin)
open Outcome

/-- What an operator looks at besides the values of its operands as numbers: whether they are integers, where
these are written or computed with in another way than doubles, and whether doubles are too coarse for them.
-/
def Op.discerns (op : Op) (target : DataType) (v w : Value) : Bool :=
  match op with
  | .cast =>
    match target with
    | .varchar => v.isInteger
    | .integer | .bigint => v.losesDigits
    | _ => false
  | .unaryMinus => v.isInteger
  | .plus | .minus | .times | .divide => v.isInteger && w.isInteger
  | .equals | .notEquals | .lessThan | .lessThanOrEqual | .greaterThan | .greaterThanOrEqual =>
    v.losesOrder w
  | _ => false

namespace Value

variable {v v' w w' : Value} {op : Op} {t : DataType}

theorem Twin.isNull_eq (h : Twin v v') : v.isNull = v'.isNull := by cases h <;> rfl

theorem Twin.negation_eq (h : Twin v v') : v.negation = v'.negation := by cases h <;> rfl

theorem toInt64_of_losesDigits {i : Int64} (h : (integer i).losesDigits = false) :
    Double.toInt64 (Double.ofInt64 i) = i := by
  simpa [losesDigits] using h

theorem Twin.convert (h : Twin v v') (hseen : Op.cast.discerns t v w = Op.cast.discerns t v' w') :
    Agree (v.convert t) (v'.convert t) := by
  cases h with
  | same => exact .refl _
  | toDouble i =>
    cases t with
    | double => exact .refl _
    | varchar => cases hseen
    | integer | bigint => exact .ok (by rw [toInt64_of_losesDigits hseen]; exact compare_self _)
    | boolean | null => exact agree_of_twin (.toDouble i)
  | ofDouble i =>
    cases t with
    | double => exact .refl _
    | varchar => cases hseen
    | integer | bigint => exact .ok (by rw [toInt64_of_losesDigits hseen.symm]; exact compare_self _)
    | boolean | null => exact agree_of_twin (.ofDouble i)

theorem Twin.opposite (h : Twin v v') (hseen : v.isInteger = v'.isInteger) :
    compare v.opposite v'.opposite = .eq := by
  cases h with
  | same => exact compare_self _
  | toDouble | ofDouble => cases hseen

theorem Twin.rounded {round : Float → Float} (h : Twin v v')
    (hround : ∀ i, round (Double.ofInt64 i) = Double.ofInt64 i) :
    compare (v.rounded round) (v'.rounded round) = .eq := by
  cases h with
  | same => exact compare_self _
  | toDouble i =>
    show compare (integer i) (double (round (Double.ofInt64 i))) = .eq
    rw [hround]
    exact (Twin.toDouble i).compare_eq
  | ofDouble i =>
    show compare (double (round (Double.ofInt64 i))) (integer i) = .eq
    rw [hround]
    exact (Twin.ofDouble i).compare_eq

theorem Twin.arithmetic (hv : Twin v v') (hw : Twin w w')
    (hseen : (v.isInteger && w.isInteger) = (v'.isInteger && w'.isInteger)) :
    Agree (arithmetic op v w) (arithmetic op v' w') := by
  cases hv with
  | same =>
    cases hw with
    | same => exact .refl _
    | toDouble | ofDouble =>
      cases v <;> first | (cases hseen; done) | exact .refl _ | exact .error rfl
  | toDouble | ofDouble =>
    cases hw with
    | same => cases w <;> first | (cases hseen; done) | exact .refl _ | exact .error rfl
    | toDouble | ofDouble => first | (cases hseen; done) | exact .refl _

theorem order_of_losesOrder {i j : Int64} (h : (integer i).losesOrder (integer j) = false) :
    Double.order (Double.ofInt64 i) (Double.ofInt64 j) = compare i.toInt j.toInt := by
  simpa [losesOrder] using h

theorem Twin.compare_congr (hv : Twin v v') (hw : Twin w w') (hseen : v.losesOrder w = v'.losesOrder w') :
    compare v w = compare v' w' := by
  cases hv with
  | same =>
    cases hw with
    | same => rfl
    | toDouble | ofDouble =>
      cases v <;> first | rfl | exact (order_of_losesOrder hseen).symm | exact order_of_losesOrder hseen.symm
  | toDouble | ofDouble =>
    cases hw with
    | same =>
      cases w <;> first | rfl | exact (order_of_losesOrder hseen).symm | exact order_of_losesOrder hseen.symm
    | toDouble | ofDouble =>
      first | rfl | exact (order_of_losesOrder hseen).symm | exact order_of_losesOrder hseen.symm

theorem Twin.compareBy (hv : Twin v v') (hw : Twin w w') (hseen : v.losesOrder w = v'.losesOrder w') :
    compareBy op v w = compareBy op v' w' := by
  rw [Value.compareBy, Value.compareBy, hv.isNull_eq, hw.isNull_eq, hv.compare_congr hw hseen]

end Value

/-- A call makes equal values of equal operands if it sees the same in them. -/
theorem Op.agree_combine (op : Op) (t : DataType) {os os' : List Outcome}
    (h : List.Forall₂ Agree os os')
    (hseen : op.discerns t (valueAt os 0) (valueAt os 1) = op.discerns t (valueAt os' 0) (valueAt os' 1)) :
    Agree (op.combine t os) (op.combine t os') := by
  have hfirst := agree_operand h 0
  have hsecond := agree_operand h 1
  cases op with
  | and => exact agree_allOf h false
  | or => exact agree_anyOf h false
  | not => exact hfirst.map fun v v' _ _ hv => hv.negation_eq ▸ Value.compare_self _
  | isNull | isNotNull => exact hfirst.map fun v v' _ _ hv => hv.isNull_eq ▸ Value.compare_self _
  | unaryMinus =>
    refine hfirst.map fun v v' ho ho' hv => hv.opposite ?_
    rwa [valueAt_of_operand ho, valueAt_of_operand ho'] at hseen
  | floor => exact hfirst.map fun v v' _ _ hv => hv.rounded fun i => (Double.rounded_ofInt64 i).1
  | ceil => exact hfirst.map fun v v' _ _ hv => hv.rounded fun i => (Double.rounded_ofInt64 i).2
  | cast =>
    refine hfirst.bind fun v v' ho ho' hv => ?_
    rw [valueAt_of_operand ho, valueAt_of_operand ho'] at hseen
    exact hv.convert hseen
  | plus | minus | times | divide =>
    refine hfirst.bind fun v v' ho ho' hv => hsecond.bind fun w w' hp hp' hw => hv.arithmetic hw ?_
    rwa [valueAt_of_operand ho, valueAt_of_operand ho', valueAt_of_operand hp, valueAt_of_operand hp']
      at hseen
  | equals | notEquals | lessThan | lessThanOrEqual | greaterThan | greaterThanOrEqual =>
    refine hfirst.bind fun v v' ho ho' hv => hsecond.bind fun w w' hp hp' hw => ?_
    rw [valueAt_of_operand ho, valueAt_of_operand ho', valueAt_of_operand hp, valueAt_of_operand hp']
      at hseen
    rw [hv.compareBy hw hseen]
    exact .refl _

namespace Expr

/-- What a call looks at in its operands on a row. -/
def discerns (row : Row) : Expr → Bool
  | apply op es t => op.discerns t (valueAt (evalEach row es) 0) (valueAt (evalEach row es) 1)
  | _ => false

/-! ## Parts of alike expressions -/

variable {row : Row} {a b : Expr} {es es' : List Expr} {op : Op} {t : DataType}

theorem Alike.length_parts (h : Alike a b) : a.parts.length = b.parts.length := by
  induction a using induct generalizing b with
  | apply op es t ih =>
    cases h with
    | apply _ _ hes =>
      rw [parts, parts, List.length_cons, List.length_cons, partsOf_eq, partsOf_eq]
      refine congrArg (· + 1) ?_
      induction hes with
      | nil => rfl
      | cons he _ ihes =>
        rw [List.forall_mem_cons] at ih
        rw [List.flatMap_cons, List.flatMap_cons, List.length_append, List.length_append, ih.1 he,
          ihes ih.2]
  | _ =>
    cases h
    all_goals rfl

/-- What holds of the parts of two alike calls, one by one, holds of the calls and of the parts of their
operands. -/
theorem forall_zip_parts_apply {P : Expr × Expr → Prop} (hes : List.Forall₂ Alike es es') :
    (∀ p ∈ (apply op es t).parts.zip (apply op es' t).parts, P p) ↔
      P (apply op es t, apply op es' t) ∧ ∀ k ∈ es.zip es', ∀ p ∈ k.1.parts.zip k.2.parts, P p := by
  rw [parts, parts, List.zip_cons_cons, List.forall_mem_cons, partsOf_eq, partsOf_eq]
  refine and_congr Iff.rfl ?_
  induction hes with
  | nil => simp
  | cons he _ ih =>
    rw [List.flatMap_cons, List.flatMap_cons, List.zip_append he.length_parts, List.zip_cons_cons,
      List.forall_mem_append, List.forall_mem_cons, ih]

/-- Alike expressions agree on a row where their calls look at the same. -/
theorem Alike.agree (h : Alike a b)
    (hseen : ∀ p ∈ a.parts.zip b.parts, p.1.discerns row = p.2.discerns row) :
    Agree (a.eval row) (b.eval row) := by
  induction a using induct generalizing b with
  | apply op es t ih =>
    cases h with
    | @apply _ _ es' _ hes =>
      obtain ⟨hcall, hoperands⟩ := (forall_zip_parts_apply hes).mp hseen
      -- the parts of aligned operands are aligned, so what calls look at is the same in each of them
      refine op.agree_combine t ?_ hcall
      rw [evalEach_eq, evalEach_eq, List.forall₂_map_left_iff, List.forall₂_map_right_iff]
      obtain ⟨hlength, halike⟩ := List.forall₂_iff_zip.mp hes
      exact List.forall₂_iff_zip.mpr ⟨hlength, fun hk =>
        ih _ (List.of_mem_zip hk).1 (halike hk) (hoperands _ hk)⟩
  | literal v =>
    cases h with
    | literal hvw => exact .ok hvw
  | _ =>
    cases h
    exact .refl _

end Expr

/-! ## What types see to -/

namespace Value

variable {v v' w : Value} {op : Op} {t : DataType}

/-- Whether the value, if it is an integer, is below two to the 53rd. -/
def fitsDouble : Value → Bool
  | integer i => i.toInt.natAbs < Double.exactLimit
  | _ => true

theorem losesDigits_of_fitsDouble (h : v.fitsDouble = true) : v.losesDigits = false := by
  cases v with
  | integer i => simp [losesDigits, Double.toInt64_ofInt64 (of_decide_eq_true h)]
  | _ => rfl

theorem losesOrder_of_fitsDouble (h : v.fitsDouble = true) (w : Value) : v.losesOrder w = false := by
  cases v with
  | integer i =>
    cases w with
    | integer j => simp [losesOrder, Double.order_ofInt64_of_lt (of_decide_eq_true h) j]
    | _ => rfl
  | _ => rfl

theorem losesOrder_comm (v w : Value) : v.losesOrder w = w.losesOrder v := by
  cases v with
  | integer i =>
    cases w with
    | integer j =>
      have hdoubles : Double.order (Double.ofInt64 i) (Double.ofInt64 j) =
        (Double.order (Double.ofInt64 j) (Double.ofInt64 i)).swap := Std.OrientedOrd.eq_swap
      have hintegers : compare i.toInt j.toInt = (compare j.toInt i.toInt).swap := Std.OrientedOrd.eq_swap
      rw [losesOrder, losesOrder, hdoubles, hintegers]
      generalize Double.order (Double.ofInt64 j) (Double.ofInt64 i) = x
      generalize compare j.toInt i.toInt = y
      cases x <;> cases y <;> rfl
    | _ => rfl
  | _ => cases w <;> rfl

theorem arithmetic_null : arithmetic op v .null = .ok .null := by
  cases v <;> rfl

/-- A column holds integers or doubles, not both. -/
theorem Twin.eq_of_holds (h : Twin v v') (hv : t.holds false v = true) (hv' : t.holds false v' = true) :
    v = v' := by
  cases h with
  | same => rfl
  | toDouble | ofDouble => cases t <;> first | cases hv; done | cases hv'

theorem Twin.eq_of_isInteger (h : Twin v v') (hkind : v.isInteger = v'.isInteger) : v = v' := by
  cases h <;> first | rfl | cases hkind

end Value

namespace Outcome

variable {os os' : List Outcome} {i : Nat}

theorem Agree.valueAt (h : Agree (operand os i) (operand os' i)) :
    Twin (Outcome.valueAt os i) (Outcome.valueAt os' i) := by
  unfold Outcome.valueAt
  generalize operand os i = o at h ⊢
  generalize operand os' i = o' at h ⊢
  cases h with
  | ok h => exact Value.twin_of_compare h
  | error => exact .same _

end Outcome

namespace Expr

variable {row : Row} {a b : Expr} {es es' : List Expr} {op : Op} {t : DataType}

/-- Whether two literals are of one kind or exact as doubles, and of one kind where they are converted to
texts. -/
def interchangeable : Expr → Expr → Bool
  | literal v, literal w => v.isInteger == w.isInteger || v.fitsDouble && w.fitsDouble
  | apply .cast (literal v :: _) .varchar, apply .cast (literal w :: _) .varchar =>
    v.isInteger == w.isInteger
  | _, _ => true

theorem operand_evalEach {i : Nat} {e : Expr} (h : es[i]? = some e) :
    operand (evalEach row es) i = e.eval row := by
  rw [operand, evalEach_eq, List.getElem?_map, h]
  rfl

/-- Equal expressions whose types tell the kinds of their values, with literals that are interchangeable. -/
structure Matches (row : Row) (a b : Expr) : Prop where
  alike : Alike a b
  left : a.KeepsKinds row
  right : b.KeepsKinds row
  literals : ∀ p ∈ a.parts.zip b.parts, p.1.interchangeable p.2 = true

theorem self_mem_zip_parts (a b : Expr) : (a, b) ∈ a.parts.zip b.parts := by
  cases a <;> cases b <;> simp [parts]

theorem Matches.operands (h : (apply op es t).Matches row (apply op es' t)) :
    List.Forall₂ (Matches row) es es' := by
  cases h.alike with
  | apply _ _ hes =>
    obtain ⟨hlength, halike⟩ := List.forall₂_iff_zip.mp hes
    refine List.forall₂_iff_zip.mpr ⟨hlength, fun hk => ?_⟩
    exact ⟨halike hk, h.left.operand (List.of_mem_zip hk).1, h.right.operand (List.of_mem_zip hk).2,
      ((forall_zip_parts_apply hes).mp h.literals).2 _ hk⟩

/-- Matching expressions that agree have one value, but for literals. -/
theorem Matches.same_or_literals (h : a.Matches row b) (hagree : Agree (a.eval row) (b.eval row)) :
    (a.eval row).toOption = (b.eval row).toOption ∨ ∃ v w, a = .literal v ∧ b = .literal w := by
  obtain ⟨halike, hleft, hright, -⟩ := h
  cases halike with
  | column | tableColumn => exact .inl rfl
  | literal => exact .inr ⟨_, _, rfl, rfl⟩
  | apply op t hes =>
    left
    have hholds := fun v => hleft.holds (v := v)
    have hholds' := fun v => hright.holds (v := v)
    generalize (apply op _ t).eval row = o at hagree hholds ⊢
    generalize (apply op _ t).eval row = o' at hagree hholds' ⊢
    cases hagree with
    | error => rfl
    | ok h =>
      -- alike calls are of one type, which is not that of an integer and of a double
      rw [(Value.twin_of_compare h).eq_of_holds (hholds _ rfl) (hholds' _ rfl)]

section

variable (h : List.Forall₂ (Matches row) es es')
  (hagree : List.Forall₂ (fun e e' => Agree (e.eval row) (e'.eval row)) es es')

include h hagree

/-- The values at a position of the operands are the same, or both operands are literals. -/
theorem valueAt_same_or_literals (i : Nat) :
    valueAt (evalEach row es) i = valueAt (evalEach row es') i ∨ ∃ v w, es[i]? = some (literal v) ∧
      es'[i]? = some (literal w) ∧ (literal v).interchangeable (literal w) = true := by
  induction h generalizing i with
  | nil => exact .inl rfl
  | cons he _ ih =>
    cases hagree with
    | cons ha has =>
      cases i with
      | succ i => exact ih has i
      | zero =>
        rcases he.same_or_literals ha with hsame | ⟨v, w, rfl, rfl⟩
        · exact .inl (congrArg (·.getD .null) hsame)
        · exact .inr ⟨v, w, rfl, rfl, he.literals _ (self_mem_zip_parts _ _)⟩

omit h in
theorem valueAt_twin (i : Nat) : Twin (valueAt (evalEach row es) i) (valueAt (evalEach row es') i) := by
  have hoperands : List.Forall₂ Agree (evalEach row es) (evalEach row es') := by
    rwa [evalEach_eq, evalEach_eq, List.forall₂_map_left_iff, List.forall₂_map_right_iff]
  exact (agree_operand hoperands i).valueAt

theorem valueAt_same_or_fits (i : Nat) :
    valueAt (evalEach row es) i = valueAt (evalEach row es') i ∨
      (valueAt (evalEach row es) i).fitsDouble = true ∧
        (valueAt (evalEach row es') i).fitsDouble = true := by
  rcases valueAt_same_or_literals h hagree i with hsame | ⟨v, w, hv, hw, hliterals⟩
  · exact .inl hsame
  · have htwin := valueAt_twin hagree i
    have hvalue : valueAt (evalEach row es) i = v := valueAt_of_operand (operand_evalEach hv)
    have hvalue' : valueAt (evalEach row es') i = w := valueAt_of_operand (operand_evalEach hw)
    rw [hvalue, hvalue'] at htwin ⊢
    rw [interchangeable, Bool.or_eq_true, Bool.and_eq_true, beq_iff_eq] at hliterals
    exact hliterals.imp_left htwin.eq_of_isInteger

end

/-! ### The operators that look at their operands -/

theorem operandsHold_of_keepsKinds (h : ∀ e ∈ es, e.KeepsKinds row) : OperandsHold false row es :=
  fun e he _ hv => (h e he).holds hv

/-- The operand of a sign change is of its type. -/
theorem holds_opposed (hbuilt : (apply .unaryMinus es t).isBuilt = true)
    (hes : OperandsHold false row es) : t.holds false (valueAt (evalEach row es) 0) = true := by
  obtain rfl : t = resultType .unaryMinus es := by simpa [isBuilt] using hbuilt
  unfold valueAt
  cases hv : operand (evalEach row es) 0 with
  | ok v => exact holds_first rfl rfl hes hv
  | error e => exact DataType.holds_null _ _

/-- The type of arithmetic is that of the sum of its operands, whatever the operator is. -/
theorem holds_sum (hop : op.isArithmetic = true) (hkeeps : (apply op es t).keepsKind = true)
    (hes : OperandsHold false row es) {r : Value}
    (hr : Value.arithmetic .plus (valueAt (evalEach row es) 0) (valueAt (evalEach row es) 1) = .ok r) :
    t.holds false r = true := by
  have htype : t = resultType .plus (es.take 2) := by
    cases op <;> first | exact of_decide_eq_true hkeeps | cases hop
  have htake : OperandsHold false row (es.take 2) := fun e he => hes e (List.mem_of_mem_take he)
  unfold valueAt at hr
  cases hv : operand (evalEach row es) 0 with
  | error e =>
    rw [hv] at hr
    cases hr
    exact DataType.holds_null _ _
  | ok v =>
    cases hw : operand (evalEach row es) 1 with
    | error e =>
      rw [hw] at hr
      obtain rfl : Value.null = r := Except.ok.inj (Value.arithmetic_null.symm.trans hr)
      exact DataType.holds_null _ _
    | ok w =>
      rw [hv, hw] at hr
      rw [htype]
      exact holds_arithmetic rfl htake (fun _ => List.length_take_le 2 es)
        ((operand_take (by decide)).trans hv) ((operand_take (by decide)).trans hw) hr

end Expr

namespace Value

variable {v v' w w' : Value} {t : DataType}

/-- If sums of equal values are of one type, integers are added on both sides or on neither. -/
theorem Twin.areIntegers_eq (hv : Twin v v') (hw : Twin w w')
    (hsum : ∀ r, Value.arithmetic .plus v w = .ok r → t.holds false r = true)
    (hsum' : ∀ r, Value.arithmetic .plus v' w' = .ok r → t.holds false r = true) :
    (v.isInteger && w.isInteger) = (v'.isInteger && w'.isInteger) := by
  have hnever : ∀ {i : Int64} {d : Float}, t.holds false (integer i) = true →
      t.holds false (double d) = true → False := by
    intro i d hi hd
    rw [DataType.eq_double_of_holds hd] at hi
    cases hi
  cases hv with
  | same =>
    cases hw with
    | same => rfl
    | toDouble => cases v <;> first | rfl | exact (hnever (hsum _ rfl) (hsum' _ rfl)).elim
    | ofDouble => cases v <;> first | rfl | exact (hnever (hsum' _ rfl) (hsum _ rfl)).elim
  | toDouble =>
    cases hw with
    | same => cases w <;> first | rfl | exact (hnever (hsum _ rfl) (hsum' _ rfl)).elim
    | toDouble => exact (hnever (hsum _ rfl) (hsum' _ rfl)).elim
    | ofDouble => rfl
  | ofDouble =>
    cases hw with
    | same => cases w <;> first | rfl | exact (hnever (hsum' _ rfl) (hsum _ rfl)).elim
    | toDouble => rfl
    | ofDouble => exact (hnever (hsum' _ rfl) (hsum _ rfl)).elim

end Value

namespace Expr

variable {row : Row} {a b : Expr} {es es' : List Expr} {op : Op} {t : DataType}

/-- Matching calls look at the same in operands that agree. -/
theorem Matches.discerns_eq (h : (apply op es t).Matches row (apply op es' t))
    (hagree : List.Forall₂ (fun e e' => Agree (e.eval row) (e'.eval row)) es es') :
    (apply op es t).discerns row = (apply op es' t).discerns row := by
  have hoperands := h.operands
  have hes := operandsHold_of_keepsKinds fun e he => h.left.operand he
  have hes' := operandsHold_of_keepsKinds fun e he => h.right.operand he
  have hbuilt := h.left.built _ (self_mem_parts _)
  have hbuilt' := h.right.built _ (self_mem_parts _)
  have hkeeps := h.left.calls _ (self_mem_parts _)
  have hkeeps' := h.right.calls _ (self_mem_parts _)
  have hfirst := valueAt_twin hagree 0
  have hsecond := valueAt_twin hagree 1
  cases op with
  | and | or | not | isNull | isNotNull | floor | ceil => rfl
  | cast =>
    cases t with
    | varchar =>
      rcases valueAt_same_or_literals hoperands hagree 0 with hsame | ⟨v, w, hv, hw, -⟩
      · exact congrArg Value.isInteger hsame
      · -- literals below a conversion to a text are of one kind
        have hself := h.literals _ (self_mem_zip_parts _ _)
        have hvalue : valueAt (evalEach row es) 0 = v := valueAt_of_operand (operand_evalEach hv)
        have hvalue' : valueAt (evalEach row es') 0 = w := valueAt_of_operand (operand_evalEach hw)
        obtain ⟨others, rfl⟩ := List.head?_eq_some_iff.mp (List.head?_eq_getElem?.trans hv)
        obtain ⟨others', rfl⟩ := List.head?_eq_some_iff.mp (List.head?_eq_getElem?.trans hw)
        show Value.isInteger _ = Value.isInteger _
        rw [hvalue, hvalue']
        exact beq_iff_eq.mp hself
    | integer | bigint =>
      rcases valueAt_same_or_fits hoperands hagree 0 with hsame | ⟨hfits, hfits'⟩
      · exact congrArg Value.losesDigits hsame
      · exact (Value.losesDigits_of_fitsDouble hfits).trans (Value.losesDigits_of_fitsDouble hfits').symm
    | _ => rfl
  | unaryMinus =>
    exact congrArg Value.isInteger
      (hfirst.eq_of_holds (holds_opposed hbuilt hes) (holds_opposed hbuilt' hes'))
  | plus | minus | times | divide =>
    exact hfirst.areIntegers_eq hsecond (fun r => holds_sum rfl hkeeps hes)
      (fun r => holds_sum rfl hkeeps' hes')
  | equals | notEquals | lessThan | lessThanOrEqual | greaterThan | greaterThanOrEqual =>
    show Value.losesOrder _ _ = Value.losesOrder _ _
    rcases valueAt_same_or_fits hoperands hagree 0 with hsame | ⟨hfits, hfits'⟩
    · rcases valueAt_same_or_fits hoperands hagree 1 with hsame' | ⟨hfits, hfits'⟩
      · rw [hsame, hsame']
      · rw [Value.losesOrder_comm, Value.losesOrder_of_fitsDouble hfits, Value.losesOrder_comm,
          Value.losesOrder_of_fitsDouble hfits']
    · rw [Value.losesOrder_of_fitsDouble hfits, Value.losesOrder_of_fitsDouble hfits']

/-- Matching expressions agree. -/
theorem Matches.agree (h : a.Matches row b) : Agree (a.eval row) (b.eval row) := by
  induction a using induct generalizing b with
  | apply op es t ih =>
    cases h.alike with
    | @apply _ _ es' _ hes =>
      have hoperands := List.forall₂_iff_zip.mp h.operands
      have hagree : List.Forall₂ (fun e e' => Agree (e.eval row) (e'.eval row)) es es' :=
        List.forall₂_iff_zip.mpr ⟨hoperands.1, fun hk => ih _ (List.of_mem_zip hk).1 (hoperands.2 hk)⟩
      refine op.agree_combine t ?_ (h.discerns_eq hagree)
      rwa [evalEach_eq, evalEach_eq, List.forall₂_map_left_iff, List.forall₂_map_right_iff]
  | literal v =>
    cases h.alike with
    | literal hvw => exact .ok hvw
  | _ =>
    cases h.alike
    exact .refl _

/-- Equal expressions agree on a row where all their calls look at the same. They do on every row of the kinds
that they say, if types tell the kinds of their values, and if literals of one that are integers where those
of the other are doubles are below two to the 53rd and not converted to texts. -/
theorem eval_agrees {a b : Expr} (h : (a == b) = true) (row : Row) :
    ((∀ p ∈ a.parts.zip b.parts, p.1.discerns row = p.2.discerns row) →
      Agree (a.eval row) (b.eval row)) ∧
    (a.KeepsKinds row → b.KeepsKinds row →
      (∀ p ∈ a.parts.zip b.parts, p.1.interchangeable p.2 = true) →
        Agree (a.eval row) (b.eval row)) :=
  ⟨(alike_of_beq h).agree, fun ha hb hliterals => Matches.agree ⟨alike_of_beq h, ha, hb, hliterals⟩⟩

/-- Whether one more than a column is below a limit. -/
def belowLimit (limit : Value) : Expr :=
  call .lessThan [call .plus [column 0 .bigint, literal (.integer 1)], literal limit]

/-- The limit may be an integer or its double. -/
theorem eval_agrees_limit :
    (belowLimit (.integer 3) == belowLimit (.double 3.0)) = true ∧
    (belowLimit (.integer 3)).eval [.integer 1] = .ok (.boolean true) ∧
    Agree ((belowLimit (.integer 3)).eval [.integer 1]) ((belowLimit (.double 3.0)).eval [.integer 1]) := by
  have hequal : (belowLimit (.integer 3) == belowLimit (.double 3.0)) = true := by decide +kernel
  refine ⟨hequal, rfl, (eval_agrees hequal _).2 ⟨?_, ?_, ?_⟩ ⟨?_, ?_, ?_⟩ ?_⟩
  all_goals decide +kernel

/-- Equal expressions whose types tell the kinds of all values on a row have the two values there, and these
are not equal. -/
def Disagree (row : Row) (a b : Expr) (v w : Value) : Prop :=
  (a == b) = true ∧ a.KeepsKinds row ∧ b.KeepsKinds row ∧
    a.eval row = .ok v ∧ b.eval row = .ok w ∧ compare v w ≠ .eq

/-- The texts of one and of its double differ, and as a double two to the 53rd is equal to an integer that it
differs from as an integer. -/
theorem eval_disagrees :
    Disagree [] (cast (literal (.integer 1)) .varchar) (cast (literal (.double 1.0)) .varchar)
      (.varchar "1") (.varchar "1.0") ∧
    Disagree [.integer 9007199254740992]
      (call .equals [column 0 .bigint, literal (.integer 9007199254740993)])
      (call .equals [column 0 .bigint, literal (.double 9007199254740992.0)])
      (.boolean false) (.boolean true) := by
  have htext : (Value.double 1.0).text = "1.0" := by decide +kernel
  refine ⟨⟨by decide +kernel, ⟨?_, ?_, ?_⟩, ⟨?_, ?_, ?_⟩, rfl, ?_, by decide⟩,
    ⟨by decide +kernel, ⟨?_, ?_, ?_⟩, ⟨?_, ?_, ?_⟩, rfl, rfl, by decide⟩⟩
  case refine_7 => exact congrArg (fun s => Except.ok (Value.varchar s)) htext
  all_goals decide +kernel

end Expr

end QueryPlan
