import QueryPlan.Operator.Basic
import QueryPlan.Execution.Join
import QueryPlan.Execution.SetOperation
import QueryPlan.Execution.Aggregate
/-!
Rows of an operator from the rows of its inputs.

All join algorithms compute the same rows, and an exchange passes its rows on as one stream.
-/
namespace QueryPlan.Execution

/-- Rows of which a condition is true, in their order. -/
def filterRows (condition : Expr) : List Row → Except EvalError (List Row)
  | [] => .ok []
  | row :: rows => do
    let keep ← condition.satisfied row
    let rest ← filterRows condition rows
    return if keep then row :: rest else rest

/-- The row of the expressions' values on a row. -/
def projectRow (exprs : List Expr) (row : Row) : Except EvalError Row := exprs.mapM (·.eval row)

/-- Rows of a stream that are passed on where some are skipped and the others are counted. The stream
ends when enough were sent, which may be before its rows do. -/
def streamRows (fetch : Option Nat) : (offset sent : Nat) → List Row → List Row
  | _, _, [] => []
  | offset + 1, sent, _ :: rows => streamRows fetch offset sent rows
  | 0, sent, row :: rows =>
    if fetch.all (sent < ·) then row :: streamRows fetch 0 (sent + 1) rows else []

/-- The sum of two machine integers, the largest one if that is beyond it. -/
def saturatingAdd (m n : Nat) : Nat := min (m + n) (UInt64.size - 1)

/-- Where a range among a number of rows ends. -/
def rangeEnd (offset : Nat) (fetch : Option Nat) (count : Nat) : Nat :=
  match fetch with
  | some n => min count (saturatingAdd offset n)
  | none => count

/-- Rows in order of a collation, cut down to a range. Without an order nothing is sorted: the rows of
the range are found as they come. -/
def sortRows (collation : Collation) (offset : Nat) (fetch : Option Nat) (rows : List Row) :
    Except EvalError (List Row) :=
  if collation.isEmpty then return streamRows fetch offset 0 rows
  else do
    let sorted ← collation.sort? rows
    return (sorted.take (rangeEnd offset fetch sorted.length)).drop offset

/-- Whether an operator asks its inputs for rows at all. -/
def receives : Operator → Bool
  | .scan _ _ | .values _ _ _ | .subset _ => false
  | .sort _ collation offset fetch => !(collation.isEmpty && offset = 0 && fetch = some 0)
  | _ => true

/-- Rows of an operator that reads rows of the given arities. -/
def operatorRows (operator : Operator) (arities : List Nat) (inputs : List (List Row)) :
    Except EvalError (List Row) :=
  let first := inputs[0]?.getD []
  let second := inputs[1]?.getD []
  let leftCount := arities[0]?.getD 0
  let rightCount := arities[1]?.getD 0
  match operator with
  | .scan _ _ | .subset _ => .ok []
  | .values _ _ tuples => .ok tuples
  | .filter _ condition => filterRows condition first
  | .project _ columns => first.mapM (projectRow (columns.map Prod.fst))
  | .join .semi _ condition => semiJoinRows condition second first
  | .join _ joinType condition => joinRows joinType condition leftCount rightCount first second
  | .correlate _ _ _ joinType => .ok (correlateRows joinType rightCount first second)
  | .aggregate _ group calls => aggregateRows group calls first
  | .sort _ collation offset fetch => sortRows collation offset fetch first
  | .union _ all => .ok (unionRows all inputs)
  | .intersect all => .ok (intersectRows all inputs)
  | .minus all => .ok (minusRows all inputs)
  | .exchange _ => .ok first
  | .sortExchange _ collation => sortRows collation 0 none first

end QueryPlan.Execution
