import QueryPlan.Collation
/-!
How the value of an expression moves along rows that are sorted by given collations.

A column moves like the first collation field on it. Sums combine movements in one direction, a
factor of known sign keeps or reverses the movement, and a factor of zero makes the product
constant.
-/
namespace QueryPlan

namespace Monotonicity

/-- Movement of a sum of values that move like this. -/
def sum : Monotonicity → Monotonicity → Monotonicity
  | constant, m => m
  | m, constant => m
  | a, b =>
    if a.isIncreasing && b.isIncreasing then increasing
    else if a.isDecreasing && b.isDecreasing then decreasing
    else notMonotonic

/-- Movement of a value multiplied by a constant of known sign. -/
def scaled (m : Monotonicity) : Ordering → Monotonicity
  | .gt => m
  | .lt => m.reverse
  | .eq => constant

end Monotonicity

namespace Expr

/-- Sign of a numeric literal. Not-a-number counts as zero. -/
def literalSign? : Expr → Option Ordering
  | literal v =>
    v.toDouble?.map fun d => if 0.0 < d then .gt else if d < 0.0 then .lt else .eq
  | _ => none

/-- Movement of a column: that of the first field on it in the collations. -/
def columnMonotonicity (collations : List Collation) (index : Nat) : Monotonicity :=
  match (collations.flatMap Collation.fields).find? (·.field == index) with
  | some fc => fc.direction.monotonicity
  | none => .notMonotonic

/-- Movement of a product from the movements and the literal signs of its factors. -/
def productMonotonicity (m₀ m₁ : Monotonicity) (sign₀ sign₁ : Option Ordering) : Monotonicity :=
  match m₀, m₁ with
  | .constant, .constant => .constant
  | _, .constant => (sign₁.map m₀.scaled).getD .notMonotonic
  | .constant, _ => (sign₀.map m₁.scaled).getD .notMonotonic
  | _, _ => .notMonotonic

/-- Movement of a quotient from the movement of its dividend and its divisor and the literal sign of
the divisor. -/
def quotientMonotonicity (m₀ m₁ : Monotonicity) (sign₁ : Option Ordering) : Monotonicity :=
  match m₀, m₁, sign₁ with
  | .constant, .constant, _ => .constant
  | _, .constant, some .gt => m₀
  | _, .constant, some .lt => m₀.reverse
  | _, _, _ => .notMonotonic

/-- Movement of a call from its operands and their movements, `none` if the call has fewer operands
than its operator reads. -/
def callMonotonicity? (op : Op) (operands : List Expr) (moves : List (Option Monotonicity)) :
    Option Monotonicity :=
  match op with
  | .plus => do
    let m₀ ← moves[0]?.join
    let m₁ ← moves[1]?.join
    some (m₀.sum m₁)
  | .minus => do
    let m₀ ← moves[0]?.join
    let m₁ ← moves[1]?.join
    some (m₀.sum m₁.reverse)
  | .times => do
    let m₀ ← moves[0]?.join
    let m₁ ← moves[1]?.join
    some (productMonotonicity m₀ m₁ (operands[0]? >>= literalSign?) (operands[1]? >>= literalSign?))
  | .divide => do
    let m₀ ← moves[0]?.join
    let m₁ ← moves[1]?.join
    some (quotientMonotonicity m₀ m₁ (operands[1]? >>= literalSign?))
  | .unaryMinus => moves[0]?.join.map Monotonicity.reverse
  | .floor | .ceil => moves[0]?.join.map Monotonicity.unstrict
  | .cast => moves[0]?.join
  | _ => some (if operands.all isConstant then .constant else .notMonotonic)

mutual

/-- Movement of an expression along rows sorted by the collations. -/
def monotonicity? (collations : List Collation) : Expr → Option Monotonicity
  | column i _ => some (columnMonotonicity collations i)
  | literal _ => some .constant
  | apply op es _ => callMonotonicity? op es (monotonicities collations es)
  | tableColumn _ _ _ => some .notMonotonic

/-- Movement of every expression of a list. -/
def monotonicities (collations : List Collation) : List Expr → List (Option Monotonicity)
  | [] => []
  | e :: es => monotonicity? collations e :: monotonicities collations es

end

end Expr

end QueryPlan
