import QueryPlan.Cluster.Edit
/-!
Rules for filters. Each offers a plan for a filter, `none` if it decides not to.

Moving a condition past a projection reads the projected expressions that the condition refers to,
so it is a fault if there are fewer.
-/
namespace QueryPlan.Filter

/-- Swaps a filter with the projection below it, the condition being turned into one over the
projection's input. -/
def belowProjection (id : NodeId) : Planning (Option NodeId) := do
  let c ← Planning.read fun c => c
  let project ← Planning.ofOption (c.input? id 0)
  match (c.operator id).filterCondition?, (c.operator project).projection? with
  | some condition, some columns =>
    let condition ← Planning.ofOption (condition.throughProjection? (columns.map Prod.fst))
    let input ← Planning.ofOption (c.input? project 0)
    let filter ← Cluster.createDefault (.filter .none condition) [input]
    return some (← Cluster.copyOver project [filter])
  | _, _ => return none

/-- Merges a filter into the one below it, whose conjuncts come first. -/
def merge (id : NodeId) : Planning (Option NodeId) := do
  let c ← Planning.read fun c => c
  let bottom ← Planning.ofOption (c.input? id 0)
  match (c.operator id).filterCondition?, (c.operator bottom).filterCondition? with
  | some upper, some lower =>
    let input ← Planning.ofOption (c.input? bottom 0)
    let condition := Expr.conjunction [lower, upper]
    return some (← Cluster.createDefault (.filter .none condition) [input])
  | _, _ => return none

/-- Where a conjunct above a join can go. -/
inductive Place where
  | left
  | right
  | condition
  | above
  deriving DecidableEq, Repr

/-- A conjunct on one side of a join goes below it, unless the join pads that side with nulls. A
conjunct without columns counts as one on the left. Any other becomes part of the condition of an
inner join and stays above an outer one. -/
def place (joinType : JoinType) (leftCount : Nat) (conjunct : Expr) : Place :=
  let used := conjunct.columns.toList
  if used.all (· < leftCount) && !joinType.padsLeft then .left
  else if !used.isEmpty && used.all (leftCount ≤ ·) && !joinType.padsRight then .right
  else if joinType = .inner then .condition
  else .above

/-- A node under a filter on conjuncts; the node itself if none are left. -/
def keeping (input : NodeId) (conjuncts : List Expr) : Planning NodeId :=
  match Expr.conjunction? conjuncts with
  | some condition => Cluster.createDefault (.filter .none condition) [input]
  | none => pure input

/-- Distributes the conjuncts of a filter over the join below it. -/
def intoJoin (id : NodeId) : Planning (Option NodeId) := do
  let c ← Planning.read fun c => c
  let joined ← Planning.ofOption (c.input? id 0)
  let left ← Planning.ofOption (c.input? joined 0)
  let right ← Planning.ofOption (c.input? joined 1)
  match (c.operator id).filterCondition?, (c.operator joined).join? with
  | some condition, some (joinType, joinCondition) =>
    let leftCount := c.arity left
    let conjuncts := condition.conjuncts
    let placed := fun p => conjuncts.filter fun e => place joinType leftCount e = p
    if conjuncts.all fun e => place joinType leftCount e = .above then return none
    let left ← keeping left (placed .left)
    let right ← keeping right ((placed .right).map (·.shift (-(leftCount : Int))))
    let joinCondition := Expr.conjunction (joinCondition :: placed .condition)
    let join ← Cluster.createDefault (.join .logical joinType joinCondition) [left, right]
    return some (← keeping join (placed .above))
  | _, _ => return none

end QueryPlan.Filter
