import QueryPlan.Metadata.Query
import QueryPlan.OrderedSet
import QueryPlan.Expr.Monotonicity
/-!
Orders that the rows of a relation are known to follow.
-/
namespace QueryPlan

namespace Collation

/-- A collation in terms of the outputs of a projection, each field replaced by the first output
that copies it. -/
def throughProjection? (exprs : List Expr) (c : Collation) : Option Collation :=
  let field := fun (fc : FieldCollation) =>
    (exprs.findIdx? fun e => e.asColumn? == some fc.field).map fun i => { fc with field := i }
  (c.fields.mapM field).map Collation.mk

/-- Fields of the projected calls whose values move in one direction along the input, `none` if a
call lacks operands. -/
def movingFields? (inputs : List Collation) : List (Expr × Nat) → Option (List FieldCollation)
  | [] => some []
  | (e, i) :: rest => do
    let here ←
      match e with
      | .apply _ _ _ => do
        let m ← e.monotonicity? inputs
        some ((Direction.ofMonotonicity? m).map (FieldCollation.directed i)).toList
      | _ => some []
    let there ← movingFields? inputs rest
    some (here ++ there)

/-- Collations of a projection over an input with the given ones: those whose fields are all copied,
and one over the calls that move in one direction. -/
def ofProjection? (exprs : List Expr) (inputs : List Collation) : Option (List Collation) := do
  if inputs.isEmpty then return []
  let moving ← movingFields? inputs exprs.zipIdx
  let copied := (inputs.filter (!·.isEmpty)).filterMap (throughProjection? exprs)
  return OrderedSet.ofList (copied ++ if moving.isEmpty then [] else [⟨moving⟩])

/-- Extends a key by every later column that keeps the rows in order. -/
def extendKey? (rows : List Row) (key : List Nat) : List Nat → Option (List Nat)
  | [] => some key
  | column :: columns => do
    let longer := key ++ [column]
    extendKey? rows (if ← (ofKeys longer).sorts? rows then longer else key) columns

/-- The key that starts at a column and takes in what it can of the columns after it, if the rows
are sorted by that column. -/
def keyFrom? (arity : Nat) (rows : List Row) (column : Nat) : Option (Option Collation) := do
  if ← (ofKeys [column]).sorts? rows then
    let later := (List.range (arity - column - 1)).map (column + 1 + ·)
    return some (ofKeys (← extendKey? rows [column] later))
  else return none

/-- Ascending collations that rows follow, at most one that starts at each column. There is no
answer if rows are compared that lack a column. -/
def ofRows? (arity : Nat) (rows : List Row) : Option (List Collation) := do
  let found ← (List.range arity).mapM (keyFrom? arity rows)
  return found.filterMap id

end Collation

namespace CollationsMethod

/-- Collations of a merge join: the left ones, and the right ones moved past the left columns. It
breaks off unless both inputs are sorted on their keys. -/
def ofMergeJoin (c : Cluster) (ask : Asking) (id : NodeId) (condition : Expr) :
    Querying (List Collation) := do
  let left ← Querying.input c id 0
  let right ← Querying.input c id 1
  let leftCount := c.arity left
  let info ← Querying.ofOption (JoinInfo.of? condition leftCount)
  let lefts ← ask.collations left
  if !lefts.any (·.leadsWith (ColumnSet.ofList info.leftKeys)) then
    throw (.fault (.unsortedMergeJoin .left))
  let rights ← ask.collations right
  if !rights.any (·.leadsWith (ColumnSet.ofList info.rightKeys)) then
    throw (.fault (.unsortedMergeJoin .right))
  return lefts ++ rights.map (·.shift leftCount)

/-- What is left of the collations of the left input by a join that works through it in sequence.
Right rows that are padded come last with nulls on the left. -/
def ofOrderedLeft (joinType : JoinType) (lefts : List Collation) : List Collation :=
  if joinType.padsLeft then
    if lefts.all fun c => c.fields.all (·.nulls = .last) then lefts else []
  else lefts

/-- The collations that all members with known collations share. -/
def sharedBy (ask : Asking) : Option (List Collation) → List NodeId → Querying (List Collation)
  | shared, [] => pure (shared.getD [])
  | shared, member :: members => do
    match ← Querying.skipCyclic (ask.collations member) with
    | some collations =>
      let narrowed :=
        match shared with
        | none => collations
        | some previous => previous.filter collations.contains
      sharedBy ask (some narrowed) members
    | none => sharedBy ask shared members

/-- The collations of a node by this method. -/
def answer (c : Cluster) (ask : Asking) (id : NodeId) :
    CollationsMethod → Querying (List Collation)
  | unknown => pure []
  | tableScan => pure (((c.operator id).table?.map Table.collations).getD [])
  | firstInput => do ask.collations (← Querying.input c id 0)
  | sort =>
    match c.operator id with
    | .sort _ collation _ _ => pure [collation]
    | _ => pure []
  | sortExchange =>
    match c.operator id with
    | .sortExchange _ collation => pure [collation]
    | _ => pure []
  | project =>
    match (c.operator id).projection? with
    | some columns => do
      let inputs ← ask.collations (← Querying.input c id 0)
      Querying.ofOption (Collation.ofProjection? (columns.map Prod.fst) inputs)
    | none => pure []
  | values =>
    match c.operator id with
    | .values _ _ tuples => Querying.ofOption (Collation.ofRows? (c.arity id) tuples)
    | _ => pure []
  | mergeJoin =>
    match (c.operator id).join? with
    | some (_, condition) => ofMergeJoin c ask id condition
    | none => pure []
  | orderedLeft => do
    let lefts ← ask.collations (← Querying.input c id 0)
    return match (c.operator id).join? with
      | some (joinType, _) => ofOrderedLeft joinType lefts
      | none => []
  | subset => do
    let n := c.node id
    match n.best with
    | some best => ask.collations best
    | none =>
      if n.traits.collation.isEmpty then sharedBy ask none n.members
      else return [n.traits.collation]
  | again => ask.collations id

end CollationsMethod

end QueryPlan
