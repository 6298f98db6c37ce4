import QueryPlan.Decimal.Spelling
import QueryPlan.Expr.Basic
import QueryPlan.Text.Blank
/-!
Evaluation of expressions on a row, with three-valued logic.

A call first gets the outcomes of all its operands and then combines them. Outcomes are values or
causes of failure, so that reading them from left to right and stopping early is the same as not
evaluating the operands that are not needed: an error behind a FALSE conjunct is never seen.
-/
namespace QueryPlan

/-- Why an expression or an aggregate has no value on a row. -/
inductive EvalError where
  | columnOutOfRange (index arity : Nat)
  | tableColumn (table : TableRef)
  | divisionByZero
  | cannotApply (op : Op) (left right : Value)
  | cannotCast (text : String) (target : DataType)
  | sumOverflow (left right : Int64)
  | cannotSum (left right : Value)
  /-- A call has fewer operands than its operator reads. -/
  | missingOperand
  /-- The quotient of the smallest integer and minus one does not fit. -/
  | quotientOverflow
  /-- An operator reads a column that its rows do not have. -/
  | missingColumn
  deriving Inhabited

namespace EvalError

/-- Description of an evaluation error. -/
def text : EvalError → String
  | columnOutOfRange i n =>
    "input ref $" ++ toString i ++ " out of range for row of arity " ++ toString n
  | tableColumn r => "table input ref " ++ r.text ++ " cannot be evaluated"
  | divisionByZero => "division by zero"
  | cannotApply op a b => "cannot apply " ++ op.text ++ " to " ++ a.text ++ " and " ++ b.text
  | cannotCast s t => "cannot cast '" ++ s ++ "' to " ++ t.text
  | sumOverflow a b => "SUM overflows at " ++ toString a.toInt ++ " + " ++ toString b.toInt
  | cannotSum a b => "cannot SUM " ++ a.text ++ " and " ++ b.text
  | missingOperand => "missing operand"
  | quotientOverflow => "quotient overflows"
  | missingColumn => "missing column"

/-- Whether the evaluation breaks off at a fault of the plan that no check has caught, instead of
reporting an error. -/
def isFault : EvalError → Bool
  | missingOperand | quotientOverflow | missingColumn => true
  | _ => false

end EvalError

/-- A value or the reason why there is none. -/
abbrev Outcome := Except EvalError Value

namespace Outcome

/-- The outcome of the operand at a position. -/
def operand (outcomes : List Outcome) (position : Nat) : Outcome :=
  outcomes[position]?.getD (.error .missingOperand)

/-- Conjunction from left to right: stops at the first FALSE and at the first error before it.
`unknown` says whether a null was seen. Anything else that is not FALSE counts as TRUE. -/
def allOf (unknown : Bool) : List Outcome → Outcome
  | [] => .ok (if unknown then .null else .boolean true)
  | .error e :: _ => .error e
  | .ok (.boolean false) :: _ => .ok (.boolean false)
  | .ok .null :: rest => allOf true rest
  | .ok _ :: rest => allOf unknown rest

/-- Disjunction from left to right: stops at the first TRUE and at the first error before it. -/
def anyOf (unknown : Bool) : List Outcome → Outcome
  | [] => .ok (if unknown then .null else .boolean false)
  | .error e :: _ => .error e
  | .ok (.boolean true) :: _ => .ok (.boolean true)
  | .ok .null :: rest => anyOf true rest
  | .ok _ :: rest => anyOf unknown rest

end Outcome

/-- Whether a comparison operator holds of two values that compare like this. -/
def Op.holdsOf : Op → Ordering → Bool
  | .equals, o => o == .eq
  | .notEquals, o => o != .eq
  | .lessThan, o => o == .lt
  | .lessThanOrEqual, o => o != .gt
  | .greaterThan, o => o == .gt
  | .greaterThanOrEqual, o => o != .lt
  | _, _ => false

namespace Value

/-- Comparison of two values. A null on either side makes it unknown. -/
def compareBy (op : Op) (a b : Value) : Value :=
  if a.isNull || b.isNull then null else boolean (op.holdsOf (compare a b))

/-- Arithmetic on 64-bit integers wraps around, and division goes towards zero. -/
def integerArithmetic (op : Op) (a b : Int64) : Outcome :=
  match op with
  | .plus => .ok (integer (a + b))
  | .minus => .ok (integer (a - b))
  | .times => .ok (integer (a * b))
  | _ =>
    if b = 0 then .error .divisionByZero
    else if a = Int64.minValue ∧ b = -1 then .error .quotientOverflow
    else .ok (integer (a / b))

/-- Arithmetic on doubles. -/
def doubleArithmetic (op : Op) (a b : Float) : Float :=
  match op with
  | .plus => a + b
  | .minus => a - b
  | .times => a * b
  | _ => a / b

/-- Arithmetic: null if an operand is null, on integers if both are, on doubles if both are
numbers. -/
def arithmetic (op : Op) (a b : Value) : Outcome :=
  if a.isNull || b.isNull then .ok null
  else
    match a, b with
    | integer i, integer j => integerArithmetic op i j
    | _, _ =>
      match a.toDouble?, b.toDouble? with
      | some x, some y => .ok (double (doubleArithmetic op x y))
      | _, _ => .error (.cannotApply op a b)

/-- Negation of a Boolean; of anything else unknown. -/
def negation : Value → Value
  | boolean b => boolean !b
  | _ => null

/-- Sign change of a number; of anything else null. -/
def opposite : Value → Value
  | integer i => integer (-i)
  | double d => double (-d)
  | _ => null

/-- Rounds a double and leaves everything else. -/
def rounded (round : Float → Float) : Value → Value
  | double d => double (round d)
  | v => v

/-- Reads an optional sign and decimal digits as a 64-bit integer, blanks around them aside. -/
def readInteger? (s : String) : Option Int64 := do
  let (negative, cs) := Decimal.splitSign (Text.trim s.toList)
  guard !cs.isEmpty
  let magnitude ← Decimal.digits? cs
  let n : Int := if negative then -(magnitude : Int) else magnitude
  guard (Int64.minValue.toInt ≤ n ∧ n ≤ Int64.maxValue.toInt)
  some (Int64.ofInt n)

/-- Conversion to a type. Only numbers and strings change; null and every pair of kind and type
without a conversion stay as they are. -/
def convert (target : DataType) : Value → Outcome
  | null => .ok null
  | varchar s =>
    match target with
    | .integer | .bigint =>
      match readInteger? s with
      | some i => .ok (integer i)
      | none => .error (.cannotCast s target)
    | _ => .ok (varchar s)
  | integer i =>
    match target with
    | .double => .ok (double (Double.ofInt64 i))
    | .varchar => .ok (varchar (integer i).text)
    | _ => .ok (integer i)
  | double d =>
    match target with
    | .integer | .bigint => .ok (integer (Double.toInt64 d))
    | .varchar => .ok (varchar (double d).text)
    | _ => .ok (double d)
  | boolean b =>
    match target with
    | .varchar => .ok (varchar (boolean b).text)
    | _ => .ok (boolean b)

end Value

/-- The outcome of a call from the outcomes of its operands. Operators read a fixed number of
operands and ignore any more, but for the conjunction and the disjunction. -/
def Op.combine (op : Op) (target : DataType) (outcomes : List Outcome) : Outcome :=
  match op with
  -- A conjunction and a disjunction end at the first operand that decides them.
  | .and => Outcome.allOf false outcomes
  | .or => Outcome.anyOf false outcomes
  | .not => Value.negation <$> Outcome.operand outcomes 0
  | .isNull => (fun v => Value.boolean v.isNull) <$> Outcome.operand outcomes 0
  | .isNotNull => (fun v => Value.boolean !v.isNull) <$> Outcome.operand outcomes 0
  | .unaryMinus => Value.opposite <$> Outcome.operand outcomes 0
  | .floor => Value.rounded Double.floor <$> Outcome.operand outcomes 0
  | .ceil => Value.rounded Double.ceil <$> Outcome.operand outcomes 0
  | .cast => do
    let v ← Outcome.operand outcomes 0
    v.convert target
  | .plus | .minus | .times | .divide => do
    let a ← Outcome.operand outcomes 0
    let b ← Outcome.operand outcomes 1
    Value.arithmetic op a b
  | op => do
    let a ← Outcome.operand outcomes 0
    let b ← Outcome.operand outcomes 1
    .ok (Value.compareBy op a b)

namespace Expr

mutual

/-- The value of an expression on a row. -/
def eval (row : Row) : Expr → Outcome
  | column i _ =>
    match row[i]? with
    | some v => .ok v
    | none => .error (.columnOutOfRange i row.length)
  | literal v => .ok v
  | apply op es t => op.combine t (evalEach row es)
  | tableColumn r _ _ => .error (.tableColumn r)

/-- The outcome of every expression of a list. -/
def evalEach (row : Row) : List Expr → List Outcome
  | [] => []
  | e :: es => eval row e :: evalEach row es

end

/-- Whether a predicate is true of a row; unknown counts as false. -/
def satisfied (row : Row) (e : Expr) : Except EvalError Bool :=
  (fun | .boolean b => b | _ => false) <$> e.eval row

theorem evalEach_eq (row : Row) (es : List Expr) : evalEach row es = es.map (eval row) := by
  induction es with
  | nil => rfl
  | cons e es ih => simp [evalEach, ih]

end Expr

end QueryPlan
