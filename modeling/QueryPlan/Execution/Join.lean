import QueryPlan.Operator.Join
import QueryPlan.Expr.Eval
/-!
Rows of joins and correlates.

Every join compares each left row with each right row, left rows outermost. A left row is followed
by its matches in the order of the right rows; unmatched right rows come last.
-/
namespace QueryPlan.Execution

/-- For each right row, whether it matches a left row. -/
def matchFlags (condition : Expr) (rights : List Row) (left : Row) :
    Except EvalError (List Bool) :=
  rights.mapM fun right => condition.satisfied (left ++ right)

/-- The rows a left row contributes: one for each match, or one with nulls if it has none and is
kept. -/
def leftRows (padsRight : Bool) (rightCount : Nat) (rights : List Row) (left : Row)
    (flags : List Bool) : List Row :=
  if padsRight && !flags.contains true then [left ++ Row.nulls rightCount]
  else (rights.zip flags).filterMap fun (right, hit) => if hit then some (left ++ right) else none

/-- For each of so many right rows, whether some left row matches it. -/
def everMatched (rightRows : Nat) (flags : List (List Bool)) : List Bool :=
  flags.foldl (List.zipWith or) (List.replicate rightRows false)

/-- Right rows that match no left row, with nulls on the left. -/
def unmatchedRights (leftCount : Nat) (rights : List Row) (flags : List (List Bool)) : List Row :=
  (rights.zip (everMatched rights.length flags)).filterMap fun (right, hit) =>
    if hit then none else some (Row.nulls leftCount ++ right)

/-- Rows of a join of left and right rows of the given arities. -/
def joinRows (joinType : JoinType) (condition : Expr) (leftCount rightCount : Nat)
    (lefts rights : List Row) : Except EvalError (List Row) := do
  let flags ← lefts.mapM (matchFlags condition rights)
  let matched := (lefts.zip flags).flatMap fun (left, flags) =>
    leftRows joinType.padsRight rightCount rights left flags
  let unmatched := if joinType.padsLeft then unmatchedRights leftCount rights flags else []
  return matched ++ unmatched

/-- Whether a left row has a match. Right rows after the first match are not compared. -/
def hasMatch (condition : Expr) (left : Row) : List Row → Except EvalError Bool
  | [] => .ok false
  | right :: rights => do
    if ← condition.satisfied (left ++ right) then .ok true else hasMatch condition left rights

/-- Left rows that have a match. -/
def semiJoinRows (condition : Expr) (rights : List Row) : List Row → Except EvalError (List Row)
  | [] => .ok []
  | left :: lefts => do
    let hit ← hasMatch condition left rights
    let rest ← semiJoinRows condition rights lefts
    return if hit then left :: rest else rest

/-- Rows of a correlate. Expressions cannot refer to the left row, so every left row sees the same
right rows. -/
def correlateRows (joinType : CorrelateType) (rightCount : Nat) (lefts rights : List Row) :
    List Row :=
  match joinType with
  | .inner => lefts.flatMap fun left => rights.map (left ++ ·)
  | .left =>
    if rights.isEmpty then lefts.map (· ++ Row.nulls rightCount)
    else lefts.flatMap fun left => rights.map (left ++ ·)
  | .semi => if rights.isEmpty then [] else lefts
  | .anti => if rights.isEmpty then lefts else []

end QueryPlan.Execution
