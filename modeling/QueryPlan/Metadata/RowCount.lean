import QueryPlan.Metadata.Query
import QueryPlan.Metadata.Estimate
/-!
Estimated row counts.
-/
namespace QueryPlan

namespace Estimate

/-- Rows of a join of so many left and right rows. Rows without a match add to the count of the side
that is kept. -/
def joinRows (joinType : JoinType) (left right selectivity : Float) : Float :=
  let inner := left * right * selectivity
  match joinType with
  | .inner => inner
  | .left => Double.max inner left
  | .right => Double.max inner right
  | .full => Double.max (Double.max inner left) right

/-- Rows of a sort that skips and cuts off. -/
def sortRows (rows : Float) (offset : Nat) (fetch : Option Nat) : Float :=
  let rest := Double.max (rows - Float.ofNat offset) 0.0
  match fetch with
  | some n => Double.min rest (Float.ofNat n)
  | none => rest

/-- Rows of a set operation over inputs with so many rows. -/
def setOperationRows (operator : Operator) (counts : List Float) : Float :=
  match operator with
  | .union _ all =>
    let sum := counts.foldl (· + ·) 0.0
    if all then sum else sum * 0.5
  | .intersect _ => counts.foldl Double.min Double.infinity
  | _ => counts.head?.getD 1.0

end Estimate

namespace RowCountMethod

/-- The row count of the only input, one row if there is not exactly one. -/
def ofInput (c : Cluster) (ask : Asking) (id : NodeId) : Querying Float :=
  match c.inputs id with
  | [input] => ask.rowCount input
  | _ => pure 1.0

/-- The smallest row count among members that have one. -/
def leastOf (ask : Asking) : Option Float → List NodeId → Querying (Option Float)
  | best, [] => pure best
  | best, member :: members => do
    match ← Querying.skipCyclic (ask.rowCount member) with
    | some rows => leastOf ask (some ((best.map (Double.min · rows)).getD rows)) members
    | none => leastOf ask best members

/-- The row count of a node by this method. -/
def answer (c : Cluster) (ask : Asking) (id : NodeId) : RowCountMethod → Querying Float
  | unknown => ofInput c ask id
  | tableScan => pure (((c.operator id).table?.map Table.rowCount).getD 1.0)
  | filter => do
    let rows ← ask.rowCount (← Querying.input c id 0)
    return rows * Estimate.selectivity (c.operator id).filterCondition?
  | firstInput => do ask.rowCount (← Querying.input c id 0)
  | join =>
    match (c.operator id).join? with
    | some (joinType, condition) => do
      let left ← ask.rowCount (← Querying.input c id 0)
      let right ← ask.rowCount (← Querying.input c id 1)
      return Estimate.joinRows joinType left right (Estimate.selectivity (some condition))
    | none => ofInput c ask id
  | semiJoin => do
    let left ← ask.rowCount (← Querying.input c id 0)
    return left * Estimate.selectivity ((c.operator id).join?.map Prod.snd)
  | correlate => do
    let left ← ask.rowCount (← Querying.input c id 0)
    match c.operator id with
    | .correlate _ _ _ joinType =>
      if joinType.projectsRight then
        return left * (← ask.rowCount (← Querying.input c id 1))
      else return left
    | _ => return left
  | aggregate =>
    match (c.operator id).aggregate? with
    | some (group, _) =>
      if group.isEmpty then pure 1.0
      else do
        let input ← Querying.input c id 0
        match ← ask.distinct input group none with
        | some distinct => return distinct
        | none => return (← ask.rowCount input) / 10.0
    | none => ofInput c ask id
  | sort => do
    let rows ← ask.rowCount (← Querying.input c id 0)
    match c.operator id with
    | .sort _ _ offset fetch => return Estimate.sortRows rows offset fetch
    | _ => return rows
  | setOperation => do
    let counts ← (c.inputs id).mapM ask.rowCount
    return Estimate.setOperationRows (c.operator id) counts
  | values =>
    match c.operator id with
    | .values _ _ tuples => pure (Float.ofNat tuples.length)
    | _ => pure 1.0
  | subset => do
    let best ← leastOf ask none (c.node id).members
    return best.getD c.config.subsetRowCount
  | again => ask.rowCount id
  | fixed rows => pure rows

end RowCountMethod

end QueryPlan
