import QueryPlan.Metadata.Query
import QueryPlan.Metadata.Estimate
import QueryPlan.Metadata.Uniqueness
/-!
Estimated numbers of distinct rows.

The question is how many different values some columns of a node have among the rows that satisfy a
predicate. There may be no answer.
-/
namespace QueryPlan

namespace Estimate

/-- Whether the rows are not told apart by any column and not restricted either. -/
def isTrivial (columns : ColumnSet) (predicate : Option Expr) : Bool :=
  columns.isEmpty && (predicate.map Expr.isAlwaysTrue).getD true

/-- Number of distinct values of a call from those of its operands. Sums have as many as the operand
with more, products as many as there are pairs, and a call with one operand as many as that. Any
other call is given a tenth of the rows. -/
def callCardinality (op : Op) (rows : Float) (operands : List (Querying (Option Float))) :
    Querying (Option Float) :=
  match op with
  | .unaryMinus => do (← Querying.ofOption operands[0]?)
  | .plus | .minus | .times | .divide => do
    let left ← (← Querying.ofOption operands[0]?)
    let right ← (← Querying.ofOption operands[1]?)
    match left, right with
    | some l, some r =>
      if op = .plus ∨ op = .minus then return some (Double.max l r) else return some (l * r)
    | _, _ => return none
  | _ =>
    match operands with
    | [operand] => operand
    | _ => pure (some (rows / 10.0))

mutual

/-- Number of distinct values of an expression that a projection computes from its input. -/
def cardinality (c : Cluster) (ask : Asking) (id : NodeId) : Expr → Querying (Option Float)
  | .column i _ => do
    let input ← Querying.input c id 0
    -- Not used for a column, but no expression has an answer without a number of rows.
    let _ ← ask.rowCount id
    ask.distinct input (ColumnSet.ofList [i]) none
  | .literal _ => do
    let _ ← Querying.input c id 0
    let rows ← ask.rowCount id
    return some (distinctDrawn 1.0 rows)
  | .apply op es _ => do
    let _ ← Querying.input c id 0
    let rows ← ask.rowCount id
    let values ← callCardinality op rows (cardinalities c ask id es)
    return values.map (distinctDrawn · rows)
  | .tableColumn _ _ _ => do
    let _ ← Querying.input c id 0
    let _ ← ask.rowCount id
    return none

/-- Numbers of distinct values of each expression of a list. -/
def cardinalities (c : Cluster) (ask : Asking) (id : NodeId) :
    List Expr → List (Querying (Option Float))
  | [] => []
  | e :: es => cardinality c ask id e :: cardinalities c ask id es

end

/-- Parts of a predicate over the output of a join: on left columns, on right columns as the right
input has them, and on both. -/
def splitAtJoin (leftCount rightCount : Nat) (predicate : Option Expr) :
    Option Expr × Option Expr × Option Expr :=
  let (lefts, rest) := Expr.splitBy (ColumnSet.range 0 leftCount) predicate
  let (rights, rest) :=
    Expr.splitBy (ColumnSet.range leftCount (leftCount + rightCount)) (Expr.conjunction? rest)
  (Expr.conjunction? lefts,
    (Expr.conjunction? rights).map (·.shift (-(leftCount : Int))),
    Expr.conjunction? rest)

/-- Input columns of an aggregate on which some of its output columns depend. -/
def aggregatedColumns (group : ColumnSet) (calls : List AggregateCall) (columns : ColumnSet) :
    ColumnSet :=
  ColumnSet.ofList <| columns.toList.flatMap fun column =>
    if column < group.size then (group.nth? column).toList
    else ((calls[column - group.size]?).map AggregateCall.args).getD []

/-- A number reduced by what predicates that could not be asked of the input leave. -/
def reducedBy (rest : List Expr) (number : Float) : Float :=
  if rest.isEmpty then number else number * selectivity (Expr.conjunction? rest)

end Estimate

namespace DistinctMethod

/-- Without knowledge of the operator there is an answer only if the columns hold a unique key, so
that every row is distinct. -/
def ofKey (c : Cluster) (ask : Asking) (id : NodeId) (columns : ColumnSet)
    (predicate : Option Expr) : Querying (Option Float) := do
  if c.areUnique id columns = some true then
    return some ((← ask.rowCount id) * Estimate.selectivity predicate)
  else return none

/-- The condition of a filter joins the predicate. -/
def ofFilter (c : Cluster) (ask : Asking) (id : NodeId) (columns : ColumnSet)
    (predicate : Option Expr) : Querying (Option Float) :=
  match (c.operator id).filterCondition? with
  | none => ofKey c ask id columns predicate
  | some condition => do
    let combined := (predicate.map fun p => Expr.call .and [p, condition]).getD condition
    ask.distinct (← Querying.input c id 0) columns (some combined)

/-- The product of the numbers on both sides of a join, as far as that many can be drawn in its
rows. -/
def ofJoin (c : Cluster) (ask : Asking) (id : NodeId) (columns : ColumnSet)
    (predicate : Option Expr) : Querying (Option Float) := do
  let left ← Querying.input c id 0
  let right ← Querying.input c id 1
  let leftCount := c.arity left
  let (onLeft, onRight, onBoth) := Estimate.splitAtJoin leftCount (c.arity right) predicate
  let leftKey := columns.toList.filter (· < leftCount)
  let rightKey := (columns.toList.filter (leftCount ≤ ·)).map (· - leftCount)
  let lefts ← ask.distinct left (ColumnSet.ofList leftKey) onLeft
  let rights ← ask.distinct right (ColumnSet.ofList rightKey) onRight
  match lefts, rights with
  | some l, some r =>
    let pairs := l * r * Estimate.selectivity onBoth
    return some (Estimate.distinctDrawn pairs (← ask.rowCount id))
  | _, _ => return none

/-- Predicates on group columns are asked of the input, the others reduce the number. -/
def ofAggregate (c : Cluster) (ask : Asking) (id : NodeId) (columns : ColumnSet)
    (predicate : Option Expr) : Querying (Option Float) :=
  match (c.operator id).aggregate? with
  | none => ofKey c ask id columns predicate
  | some (group, calls) => do
    let (onGroup, rest) := Expr.splitBy (ColumnSet.range 0 group.size) predicate
    let asked := (Expr.conjunction? onGroup).bind (·.renumber? group.nth?)
    let number ← ask.distinct (← Querying.input c id 0)
      (Estimate.aggregatedColumns group calls columns) asked
    return number.map (Estimate.reducedBy rest)

/-- Multiplies a number by the numbers of values of computed columns. -/
def timesComputed (c : Cluster) (ask : Asking) (id : NodeId) (exprs : List Expr) :
    Float → List Nat → Querying (Option Float)
  | number, [] => pure (some number)
  | number, column :: columns => do
    let e ← Querying.ofOption exprs[column]?
    match ← Estimate.cardinality c ask id e with
    | some factor => timesComputed c ask id exprs (number * factor) columns
    | none => return none

/-- Copied columns are asked of the input, and each computed column multiplies the number. -/
def ofProjection (c : Cluster) (ask : Asking) (id : NodeId) (columns : ColumnSet)
    (predicate : Option Expr) : Querying (Option Float) :=
  match (c.operator id).projection? with
  | none => ofKey c ask id columns predicate
  | some projected => do
    let exprs := projected.map Prod.fst
    let (copied, computed) := Estimate.splitProjected exprs columns
    let (onOutput, rest) := Expr.splitBy (ColumnSet.range 0 exprs.length) predicate
    let asked ← (Expr.conjunction? onOutput).mapM fun p =>
      Querying.ofOption (p.throughProjection? exprs)
    match ← ask.distinct (← Querying.input c id 0) copied asked with
    | none => return none
    | some number =>
      let number := Estimate.reducedBy rest number
      if computed.isEmpty then return some number
      else
        match ← timesComputed c ask id exprs number computed.toList with
        | some product => return some (Estimate.distinctDrawn product (← ask.rowCount id))
        | none => return none

/-- The sum of the numbers of all inputs, the predicate being read with each input's types. -/
def sumOf (c : Cluster) (ask : Asking) (columns : ColumnSet) (predicate : Option Expr) :
    Float → List NodeId → Querying (Option Float)
  | sum, [] => pure (some sum)
  | sum, input :: inputs => do
    let asked ← predicate.mapM fun p => Querying.ofOption (p.retype? (c.rowType input))
    match ← ask.distinct input columns asked with
    | some number => sumOf c ask columns predicate (sum + number) inputs
    | none => return none

/-- The smallest number among members that have one. -/
def leastOf (ask : Asking) (columns : ColumnSet) (predicate : Option Expr) :
    Option Float → List NodeId → Querying (Option Float)
  | least, [] => pure least
  | least, member :: members => do
    match ← Querying.skipCyclic (ask.distinct member columns predicate) with
    | some (some number) =>
      leastOf ask columns predicate (some ((least.map (Double.min · number)).getD number)) members
    | _ => leastOf ask columns predicate least members

/-- One row if nothing tells rows apart, else another answer. -/
def unlessTrivial (columns : ColumnSet) (predicate : Option Expr)
    (query : Querying (Option Float)) : Querying (Option Float) :=
  if Estimate.isTrivial columns predicate then pure (some 1.0) else query

/-- The number of distinct rows of a node by this method. -/
def answer (c : Cluster) (ask : Asking) (id : NodeId) (columns : ColumnSet)
    (predicate : Option Expr) : DistinctMethod → Querying (Option Float)
  | unknown => ofKey c ask id columns predicate
  | filter => unlessTrivial columns predicate (ofFilter c ask id columns predicate)
  | firstInput => do ask.distinct (← Querying.input c id 0) columns predicate
  | join => unlessTrivial columns predicate (ofJoin c ask id columns predicate)
  | semiJoin =>
    unlessTrivial columns predicate do
      let number ← ask.distinct (← Querying.input c id 0) columns predicate
      return number.map (· * Estimate.selectivity ((c.operator id).join?.map Prod.snd))
  | aggregate => unlessTrivial columns predicate (ofAggregate c ask id columns predicate)
  | project => unlessTrivial columns predicate (ofProjection c ask id columns predicate)
  | union => sumOf c ask columns predicate 0.0 (c.inputs id)
  | values =>
    unlessTrivial columns predicate do
      let rows := (← ask.rowCount id) / 2.0
      return some (Estimate.distinctDrawn rows (rows * Estimate.selectivity predicate))
  | subset => do
    let n := c.node id
    match n.best with
    | some best => ask.distinct best columns predicate
    | none => leastOf ask columns predicate none n.members
  | again => ask.distinct id columns predicate

end DistinctMethod

end QueryPlan
