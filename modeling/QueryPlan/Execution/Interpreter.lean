import QueryPlan.Execution.Operator
import QueryPlan.Execution.Stream
/-!
Runs of operators on the streams of their inputs.

Filters, projections, limits, joins, correlates and unions send rows while they receive their input.
Sorts, aggregates, intersections and differences receive all of it first. Every run ends its stream once
it has sent its last row.
-/
namespace QueryPlan.Execution

open Sending

/-- Sends rows that are known and ends. -/
def runRows (rows : List Row) : Sending Unit := do
  sendAll rows
  finish

/-- Sends on the rows of which a condition is true. -/
def runFilter (cancelled : Bool) (condition : Expr) (rows : List Row) : Sending Unit := do
  forEach cancelled (fun row => sendIf (condition.satisfied row) row) rows
  finish

/-- Sends the values of expressions on a row. -/
def sendProjected (exprs : List Expr) (row : Row) : Sending Unit := do
  let values ← evaluating (projectRow exprs row)
  send values

/-- Sends the values of expressions on each row. -/
def runProject (cancelled : Bool) (exprs : List Expr) (rows : List Row) : Sending Unit := do
  forEach cancelled (sendProjected exprs) rows
  finish

/-- Skips rows of an input. There is no rest if the input ends before. -/
def skip (cancelled : Bool) : Nat → List Row → Sending (Option (List Row))
  | 0, rows => return some rows
  | _ + 1, [] => do
    ask cancelled
    return none
  | offset + 1, _ :: rows => do
    ask cancelled
    skip cancelled offset rows

/-- Sends on rows of an input until it ends or enough were sent. -/
def pass (cancelled : Bool) (fetch : Option Nat) : (sent : Nat) → List Row → Sending Unit
  | sent, [] => if fetch.all (sent < ·) then ask cancelled else pure ()
  | sent, row :: rows =>
    if fetch.all (sent < ·) then do
      ask cancelled
      send row
      pass cancelled fetch (sent + 1) rows
    else pure ()

/-- Sends a range of the rows as they come. -/
def runLimit (cancelled : Bool) (offset : Nat) (fetch : Option Nat) (rows : List Row) :
    Sending Unit := do
  match ← skip cancelled offset rows with
  | none => finish
  | some rows =>
    pass cancelled fetch 0 rows
    finish

/-- Sends a range of the sorted rows. Without an order nothing is buffered. -/
def runSort (cancelled : Bool) (collation : Collation) (offset : Nat) (fetch : Option Nat)
    (rows : List Row) : Sending Unit :=
  if collation.isEmpty then runLimit cancelled offset fetch rows
  else do
    let received ← receiveAll cancelled rows
    let sorted ← evaluating (sortRows collation offset fetch received)
    runRows sorted

/-- Compares a left row with right rows and sends its matches. Each right row has a flag that is set once
a left row matches it. Returns whether this left row has a match, and the right rows afterwards. -/
def matchRights (condition : Expr) (left : Row) :
    List (Row × Bool) → Sending (Bool × List (Row × Bool))
  | [] => return (false, [])
  | (right, flag) :: rights => do
    let hit ← evaluating (condition.satisfied (left ++ right))
    sendWhen hit (left ++ right)
    let (matched, rights) ← matchRights condition left rights
    return (hit || matched, (right, flag || hit) :: rights)

/-- Sends the right rows that no left row matches, with nulls on the left. -/
def sendUnmatched (leftCount : Nat) : List (Row × Bool) → Sending Unit
  | [] => return ()
  | (right, flag) :: rights => do
    sendWhen (!flag) (Row.nulls leftCount ++ right)
    sendUnmatched leftCount rights

/-- Sends what a left row contributes to a join. Unmatched ones may be kept with nulls on the right. -/
def joinLeft (condition : Expr) (padsRight : Bool) (rightCount : Nat) (rights : List (Row × Bool))
    (left : Row) : Sending (List (Row × Bool)) := do
  let (matched, rights) ← matchRights condition left rights
  sendWhen (!matched && padsRight) (left ++ Row.nulls rightCount)
  return rights

/-- Joins each left row with the buffered right rows, and remembers which of these were matched. -/
def runJoin (cancelled : Bool) (joinType : JoinType) (condition : Expr) (leftCount rightCount : Nat)
    (lefts rights : List Row) : Sending Unit := do
  let buffered ← receiveAll cancelled rights
  let flagged ← receiveEach cancelled (joinLeft condition joinType.padsRight rightCount)
    (buffered.map (·, false)) lefts
  sendUnmatched leftCount (if joinType.padsLeft then flagged else [])
  finish

/-- Sends on the left rows that have a match. -/
def runSemiJoin (cancelled : Bool) (condition : Expr) (lefts rights : List Row) : Sending Unit := do
  let buffered ← receiveAll cancelled rights
  forEach cancelled (fun left => sendIf (hasMatch condition left buffered) left) lefts
  finish

/-- Sends what a left row contributes to a correlate. -/
def correlateLeft (joinType : CorrelateType) (rightCount : Nat) (rights : List Row) (left : Row) :
    Sending Unit :=
  match joinType with
  | .inner => sendAll (rights.map (left ++ ·))
  | .left => do
    sendAll (rights.map (left ++ ·))
    sendWhen rights.isEmpty (left ++ Row.nulls rightCount)
  | .semi => sendWhen (!rights.isEmpty) left
  | .anti => sendWhen rights.isEmpty left

/-- Correlates each left row with the buffered right rows. -/
def runCorrelate (cancelled : Bool) (joinType : CorrelateType) (rightCount : Nat)
    (lefts rights : List Row) : Sending Unit := do
  let buffered ← receiveAll cancelled rights
  forEach cancelled (correlateLeft joinType rightCount buffered) lefts
  finish

/-- Sends the groups of all rows. -/
def runAggregate (cancelled : Bool) (group : ColumnSet) (calls : List AggregateCall)
    (rows : List Row) : Sending Unit := do
  let received ← receiveAll cancelled rows
  let groups ← evaluating (aggregateRows group calls received)
  runRows groups

/-- Sends on a row; without duplicates only if it differs from the rows seen before. -/
def sendNew (all : Bool) (seen : List Row) (row : Row) : Sending (List Row) :=
  if all then do
    send row
    return seen
  else if seen.any row.same then return seen
  else do
    send row
    return row :: seen

/-- Sends on the rows of each input in turn. -/
def runUnion (cancelled all : Bool) (inputs : List (List Row)) : Sending Unit := do
  let _ ← inputs.foldlM (receiveEach cancelled (sendNew all)) []
  finish

/-- Sends what a rule for the numbers of equal rows leaves of the first input. -/
def runReduce (cancelled all : Bool) (leave : Nat → Nat → Nat) (inputs : List (List Row)) :
    Sending Unit := do
  let inputs ← inputs.mapM (receiveAll cancelled)
  runRows (reduceRows all leave inputs)

/-- Run of an operator on the rows of its inputs, the last of which is taken first. -/
def runOperator (cancelled : Bool) (id : NodeId) (operator : Operator) (arities : List Nat)
    (inputs : List (List Row)) : Sending Unit :=
  let leftCount := arities[0]?.getD 0
  let rightCount := arities[1]?.getD 0
  match operator, inputs.reverse with
  | .scan _ table, _ => do
    let rows ← computed table.scan
    runRows rows
  | .values _ _ tuples, _ => runRows tuples
  | .filter _ condition, rows :: _ => runFilter cancelled condition rows
  | .project _ columns, rows :: _ => runProject cancelled (columns.map Prod.fst) rows
  | .join .semi _ condition, rights :: lefts :: _ => runSemiJoin cancelled condition lefts rights
  | .join _ joinType condition, rights :: lefts :: _ =>
    runJoin cancelled joinType condition leftCount rightCount lefts rights
  | .correlate _ _ _ joinType, rights :: lefts :: _ =>
    runCorrelate cancelled joinType rightCount lefts rights
  | .aggregate _ group calls, rows :: _ => runAggregate cancelled group calls rows
  | .sort _ collation offset fetch, rows :: _ => runSort cancelled collation offset fetch rows
  | .union _ all, _ => runUnion cancelled all inputs
  | .intersect all, _ => runReduce cancelled all commonNumber inputs
  | .minus all, _ => runReduce cancelled all (remainingNumber all) inputs
  | .exchange _, rows :: _ => runSort cancelled .empty 0 none rows
  | .sortExchange _ collation, rows :: _ => runSort cancelled collation 0 none rows
  | .subset _, _ => throw (.subsetInPlan id)
  | _, _ => throw (.invalidNode id .missingInput)

end QueryPlan.Execution
