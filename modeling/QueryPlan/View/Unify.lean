import QueryPlan.Lattice.StarMatch
/-!
Computing a plan from the rows of a view.

A node can be computed from the rows of a target node in one of these ways: it is the target; both
filter one input and the target's conjuncts are among the node's; both project one input, which
may be filtered, and the node's expressions can be computed from the target's outputs; both
aggregate one input and the node groups by some of the target's group columns.
-/
namespace QueryPlan

/-- How an aggregate is computed from a finer one. -/
structure RollUp where
  /-- Output column of the finer aggregate for each group column, in ascending order of these. -/
  groups : List Nat
  /-- The calls, each with the output column of the finer aggregate that holds its parts. -/
  calls : List (AggregateCall × Nat)
  /-- Whether the finer aggregate has no other group columns. -/
  sameGroups : Bool
  names : List String

/-- How a node is computed from the rows of a target. -/
inductive Unification where
  /-- Conjuncts over the target's output. -/
  | filter (residual : List Expr)
  /-- Conjuncts and then expressions, both over the target's output. -/
  | project (residual : List Expr) (columns : List (Expr × String))
  | aggregate (rollUp : RollUp)

namespace Unification

/-- The conjuncts that turn the output of one node into that of another. -/
def residual? (c : Cluster) (id target : NodeId) : Option (List Expr) :=
  if id = target then some []
  else do
    let condition ← (c.operator id).filterCondition?
    let input ← c.input? id 0
    let conjuncts := condition.conjuncts
    if input = target then return conjuncts
    let targetCondition ← (c.operator target).filterCondition?
    let targetConjuncts := targetCondition.conjuncts
    if c.input? target 0 = some input ∧ targetConjuncts.all conjuncts.contains then
      return conjuncts.filter (!targetConjuncts.contains ·)
    else none

/-- An expression over an input as one over the outputs of a projection of it: the output that holds
its value, or else the expression over outputs that copy its columns. -/
def overOutputs? (outputs : List Expr) (rowType : RowType) (e : Expr) : Option Expr :=
  match outputs.findIdx? (· == e) with
  | some i => Expr.field? rowType i
  | none => e.renumber? fun column => outputs.findIdx? fun output => output.asColumn? == some column

/-- Computes a projection from another one. -/
def ofProjections? (c : Cluster) (id target : NodeId)
    (columns targetColumns : List (Expr × String)) : Option Unification := do
  let input ← c.input? id 0
  let targetInput ← c.input? target 0
  -- Conjuncts below the node that the target lacks are asked of the target's outputs instead.
  let residual ← residual? c input targetInput
  let restate := overOutputs? (targetColumns.map Prod.fst) (c.rowType target)
  let exprs ← columns.mapM fun (e, _) => restate e
  let residual ← residual.mapM restate
  return .project residual (exprs.zip (columns.map Prod.snd))

/-- For each input column of an aggregate, the input column of another one that it equals: they have
one input, or the input of the first is a projection of plain columns of the other's. -/
def inputColumns? (c : Cluster) (input targetInput : NodeId) : Option (List Nat) :=
  if input = targetInput then some (List.range (c.arity input))
  else do
    let columns ← (c.operator input).projection?
    if c.input? input 0 = some targetInput then columns.mapM fun (e, _) => e.asColumn? else none

/-- The output columns of an aggregate that hold group columns of another one. -/
def groupPositions (targetGroup : ColumnSet) (inputColumns : List Nat) (group : ColumnSet) :
    Matching (List Nat) :=
  group.toList.mapM fun column => do
    let inputColumn ← Matching.reading inputColumns[column]?
    Matching.ofOption (targetGroup.indexOf? inputColumn)

/-- The output column of an aggregate that holds the result of a call of another one. -/
def callPosition (targetGroup : ColumnSet) (targetCalls : List AggregateCall)
    (inputColumns : List Nat) (call : AggregateCall) : Matching Nat := do
  let args ← call.args.mapM fun column => Matching.reading inputColumns[column]?
  let i ← Matching.ofOption <|
    targetCalls.findIdx? fun t => t.function == call.function && t.args == args
  return targetGroup.size + i

/-- Computes an aggregate from a finer one. -/
def ofAggregates (c : Cluster) (id target : NodeId) (group targetGroup : ColumnSet)
    (calls targetCalls : List AggregateCall) : Matching Unification := do
  let input ← Matching.reading (c.input? id 0)
  let targetInput ← Matching.reading (c.input? target 0)
  let inputColumns ← Matching.ofOption (inputColumns? c input targetInput)
  let groups ← groupPositions targetGroup inputColumns group
  let positions ← calls.mapM (callPosition targetGroup targetCalls inputColumns)
  return .aggregate
    ⟨groups, calls.zip positions, groups.length = targetGroup.size, (c.rowType id).names⟩

/-- How a node is computed from the rows of a target, if it can be. -/
def of (c : Cluster) (id target : NodeId) : Matching Unification := do
  let direct :=
    if id = target ∨ ((c.operator target).filterCondition?).isSome then residual? c id target
    else none
  match direct with
  | some residual => return .filter residual
  | none =>
    match (c.operator id).projection?, (c.operator target).projection?,
      (c.operator id).aggregate?, (c.operator target).aggregate? with
    | some columns, some targetColumns, _, _ =>
      Matching.ofOption (ofProjections? c id target columns targetColumns)
    | _, _, some (group, calls), some (targetGroup, targetCalls) =>
      ofAggregates c id target group targetGroup calls targetCalls
    | _, _, _, _ => Matching.ofOption none

/-- A projection over a node; the node itself if it returns all fields unchanged. -/
def projectOver (input : NodeId) (columns : List (Expr × String)) : Planning NodeId := do
  let arity ← Planning.read (·.arity input)
  if Expr.areIdentity (columns.map Prod.fst) arity then return input
  Cluster.createDefault (.project .none columns) [input]

/-- A projection of fields of a node under names. -/
def fieldsOver (input : NodeId) (positions : List Nat) (names : List String) :
    Planning NodeId := do
  let rowType ← Planning.read (·.rowType input)
  let exprs ← Planning.ofOption (positions.mapM (Expr.field? rowType))
  projectOver input (exprs.zip (Operator.projectionNames exprs.length names))

/-- The aggregate over a finer one that combines its parts. -/
def RollUp.aggregate (r : RollUp) : Operator :=
  .aggregate .none (ColumnSet.ofList r.groups) <| r.calls.map fun (call, position) =>
    ⟨call.function.rollUp, [position], call.name⟩

/-- Output columns of a roll-up in the sequence of the aggregate it stands for. The roll-up has its
group columns in the finer aggregate's sequence. -/
def RollUp.positions (r : RollUp) : List Nat :=
  let group := ColumnSet.ofList r.groups
  r.groups.filterMap group.indexOf? ++ (List.range r.calls.length).map (group.size + ·)

/-- Creates the plan that computes a node from a replacement, which has the target's rows. -/
def build (u : Unification) (replacement : NodeId) : Planning NodeId :=
  match u with
  | filter residual => Filter.keeping replacement residual
  | project residual columns => do
    let input ← Filter.keeping replacement residual
    projectOver input columns
  | aggregate r => do
    if r.sameGroups then
      fieldsOver replacement (r.groups ++ r.calls.map Prod.snd) r.names
    else
      let rolled ← Cluster.createDefault (RollUp.aggregate r) [replacement]
      fieldsOver rolled (RollUp.positions r) r.names

end Unification

namespace Cluster

/-- A query with one node computed from a replacement, if the node can be computed from a target. -/
def unifyAt (target query replacement id : NodeId) : Planning (Option NodeId) := do
  match ← Planning.inspect fun c => (Unification.of c id target).run with
  | none => return none
  | some u =>
    let substitute ← u.build replacement
    return some (← replace query id substitute)

/-- Queries that have one node each computed from a replacement, for every node of a query that
can be computed from a target. The replacement must have the target's column types. -/
def unifyAll (target query replacement : NodeId) : Planning (List NodeId) := do
  Planning.inspect fun c =>
    if (c.rowType target).isCompatible (c.rowType replacement) then .ok ()
    else .error (.rowTypeMismatch replacement (c.rowType target) (c.rowType replacement))
  let nodes ← Planning.read (·.breadthFirst query)
  let plans ← nodes.mapM (unifyAt target query replacement)
  return plans.filterMap id

end Cluster

end QueryPlan
