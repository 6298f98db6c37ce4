import QueryPlan.Expr.Eval
/-!
# The parts of an expression

What is asked of every call, every column and every literal of an expression is a statement about one part
that is made of all of them.
-/
namespace QueryPlan

/-- Number of operands of the calls of an operator, `none` for any number. -/
def Op.operandCount? : Op → Option Nat
  | .and | .or => none
  | .not | isNull | isNotNull | unaryMinus | floor | ceil | cast => some 1
  | equals | notEquals | lessThan | lessThanOrEqual | greaterThan | greaterThanOrEqual
  | plus | minus | times | divide => some 2

namespace Expr

mutual

/-- All expressions that an expression is built of, itself among them. -/
def parts : Expr → List Expr
  | apply op es t => apply op es t :: partsOf es
  | e => [e]

/-- The parts of the expressions of a list. -/
def partsOf : List Expr → List Expr
  | [] => []
  | e :: es => parts e ++ partsOf es

end

theorem partsOf_eq (es : List Expr) : partsOf es = es.flatMap parts := by
  induction es with
  | nil => rfl
  | cons e es ih => simp [partsOf, ih]

theorem self_mem_parts (e : Expr) : e ∈ e.parts := by
  cases e <;> simp [parts]

/-- What holds of all parts of a call holds of the call and of all parts of its operands. -/
theorem forall_parts_apply {P : Expr → Prop} {op : Op} {es : List Expr} {t : DataType} :
    (∀ p ∈ (apply op es t).parts, P p) ↔ P (apply op es t) ∧ ∀ e ∈ es, ∀ p ∈ e.parts, P p := by
  rw [parts, partsOf_eq, List.forall_mem_cons]
  simp only [List.mem_flatMap, forall_exists_index, and_imp]
  exact and_congr_right fun _ => ⟨fun h e he p hp => h p e he hp, fun h p e he hp => h e he p hp⟩

end Expr

end QueryPlan
