import QueryPlan.Cluster.Edit
/-!
Rules for projections and for joins over projections. Each offers a plan for a node, `none` if it
decides not to.
-/
namespace QueryPlan.Projection

/-- Merges a projection into the one below it. -/
def merge (id : NodeId) : Planning (Option NodeId) := do
  let c ← Planning.read fun c => c
  let bottom ← Planning.ofOption (c.input? id 0)
  match (c.operator id).projection?, (c.operator bottom).projection? with
  | some upper, some lower =>
    let columns ← upper.mapM fun (e, name) => do
      let e ← Planning.ofOption (e.throughProjection? (lower.map Prod.fst))
      return (e, name)
    let input ← Planning.ofOption (c.input? bottom 0)
    return some (← Cluster.createDefault (.project .none columns) [input])
  | _, _ => return none

/-- Drops a projection that returns the fields of its input unchanged. -/
def removeIdentity (id : NodeId) : Planning (Option NodeId) := do
  let c ← Planning.read fun c => c
  let input ← Planning.ofOption (c.input? id 0)
  match (c.operator id).projection? with
  | some columns =>
    return if Expr.areIdentity (columns.map Prod.fst) (c.arity input) then some input else none
  | none => return none

/-- The fields of a row type as expressions, the first one at an ordinal. -/
def fieldsFrom (rowType : RowType) (offset : Nat) : List Expr :=
  rowType.fields.zipIdx.map fun (f, i) => Expr.column (offset + i) f.dataType

/-- What a join reads for one of its inputs: the projection's input if the projection is pulled,
else the input itself, and the fields of the input as expressions from an ordinal on. -/
def pull (c : Cluster) (input : NodeId) (pulls : Bool) (offset : Nat) :
    Option (NodeId × List Expr) :=
  match (c.operator input).projection? with
  | some columns =>
    if pulls then
      (c.input? input 0).map fun below =>
        (below, columns.map fun (e, _) => e.shift offset)
    else some (input, fieldsFrom (c.rowType input) offset)
  | none => some (input, fieldsFrom (c.rowType input) offset)

/-- Whether an input is a projection that can be pulled from a side that the join pads or not. -/
def canPull (c : Cluster) (input : NodeId) (wanted pads : Bool) : Bool :=
  wanted && !pads && ((c.operator input).projection?).isSome

/-- Pulls projections from under a join: the join reads their inputs, and one projection above it
computes the fields of the former join. A projection stays on a side that is padded with nulls. -/
def aboveJoin (fromLeft fromRight : Bool) (id : NodeId) : Planning (Option NodeId) := do
  let c ← Planning.read fun c => c
  match (c.operator id).join? with
  | none => return none
  | some (joinType, condition) =>
    let left ← Planning.ofOption (c.input? id 0)
    let right ← Planning.ofOption (c.input? id 1)
    let pullLeft := canPull c left fromLeft joinType.padsLeft
    let pullRight := canPull c right fromRight joinType.padsRight
    if !pullLeft && !pullRight then return none
    let (newLeft, leftExprs) ← Planning.ofOption (pull c left pullLeft 0)
    let (newRight, rightExprs) ← Planning.ofOption (pull c right pullRight (c.arity newLeft))
    let exprs := leftExprs ++ rightExprs
    let condition ← Planning.ofOption (condition.throughProjection? exprs)
    let join ← Cluster.createDefault (.join .logical joinType condition) [newLeft, newRight]
    let project := Operator.projectOf .none exprs (c.rowType id).names
    return some (← Cluster.createDefault project [join])

end QueryPlan.Projection
