import QueryPlan.ColumnSet
import QueryPlan.Expr.Eval
import QueryPlan.Operator.Aggregate
/-!
Rows of aggregates.

Rows are grouped by the values of the group columns, and groups come out in the order of their keys.
A call folds the values of its argument, nulls left out, into an accumulator. Without group columns
there is one group even if there are no rows.
-/
namespace QueryPlan

namespace AggFunction

/-- Accumulator of a group before its first value; `none` becomes null. -/
def start : AggFunction → Option Value
  | count | sum0 => some (.integer 0)
  | sum | min | max => none

/-- Sum of two values, checked for overflow if both are integers. -/
def addValues (a b : Value) : Except EvalError Value :=
  match a, b with
  | .integer x, .integer y =>
    let exact := x.toInt + y.toInt
    if Int64.minValue.toInt ≤ exact ∧ exact ≤ Int64.maxValue.toInt then .ok (.integer (x + y))
    else .error (.sumOverflow x y)
  | _, _ =>
    match a.toDouble?, b.toDouble? with
    | some x, some y => .ok (.double (x + y))
    | _, _ => .error (.cannotSum a b)

/-- Accumulator after a value that is not null. The first of equal least or greatest values stays.
-/
def accumulate (f : AggFunction) (acc : Option Value) (v : Value) :
    Except EvalError (Option Value) :=
  match f, acc with
  | count, some (.integer n) => .ok (some (.integer (n + 1)))
  | count, acc => .ok acc
  | sum, some total | sum0, some total => some <$> addValues total v
  | min, some least => .ok (some (if compare v least == .lt then v else least))
  | max, some greatest => .ok (some (if compare v greatest == .gt then v else greatest))
  | _, none => .ok (some v)

/-- Accumulator after any value. -/
def step (f : AggFunction) (acc : Option Value) (v : Value) : Except EvalError (Option Value) :=
  if v.isNull then .ok acc else f.accumulate acc v

end AggFunction

namespace Execution

/-- The value of a column of a row. -/
def columnValue (row : Row) (column : Nat) : Except EvalError Value :=
  match row[column]? with
  | some v => .ok v
  | none => .error .missingColumn

/-- The value that a call takes from a row: that of its first argument, or a value that is never
null if it has none. -/
def argumentValue (call : AggregateCall) (row : Row) : Except EvalError Value :=
  match call.args with
  | [] => .ok (.boolean true)
  | a :: _ => columnValue row a

/-- Values of the group columns of a row. -/
def groupKey (group : ColumnSet) (row : Row) : Except EvalError Row :=
  group.toList.mapM (columnValue row)

/-- Adds a row to the accumulators of its group. -/
def addRow (row : Row) :
    List AggregateCall → List (Option Value) → Except EvalError (List (Option Value))
  | call :: calls, acc :: accs => do
    let v ← argumentValue call row
    let acc ← call.function.step acc v
    let accs ← addRow row calls accs
    return acc :: accs
  | _, _ => .ok []

/-- Accumulators of an empty group. -/
def emptyGroup (calls : List AggregateCall) : List (Option Value) :=
  calls.map fun c => c.function.start

/-- Adds a row to its group in a list of groups in key order. -/
def addToGroups (calls : List AggregateCall) (key row : Row) :
    List (Row × List (Option Value)) → Except EvalError (List (Row × List (Option Value)))
  | [] => do
    let accs ← addRow row calls (emptyGroup calls)
    return [(key, accs)]
  | (k, accs) :: groups =>
    match key.order k with
    | .lt => do
      let new ← addRow row calls (emptyGroup calls)
      return (key, new) :: (k, accs) :: groups
    | .eq => do
      let accs ← addRow row calls accs
      return (k, accs) :: groups
    | .gt => do
      let groups ← addToGroups calls key row groups
      return (k, accs) :: groups

/-- Groups of rows with their accumulators, in key order. -/
def groupRows (group : ColumnSet) (calls : List AggregateCall) (rows : List Row) :
    Except EvalError (List (Row × List (Option Value))) :=
  rows.foldlM
    (fun groups row => do
      let key ← groupKey group row
      addToGroups calls key row groups)
    []

/-- Rows of an aggregate: the group columns followed by the results of the calls. -/
def aggregateRows (group : ColumnSet) (calls : List AggregateCall) (rows : List Row) :
    Except EvalError (List Row) := do
  let groups ← groupRows group calls rows
  -- Without group columns there is a row of totals, of no rows too.
  let groups :=
    if groups.isEmpty && group.isEmpty then [([], emptyGroup calls)] else groups
  return groups.map fun (key, accs) => key ++ accs.map (·.getD .null)

end Execution

end QueryPlan
