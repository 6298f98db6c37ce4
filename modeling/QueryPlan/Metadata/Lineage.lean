import QueryPlan.Metadata.Query
import QueryPlan.OrderedSet
import QueryPlan.Expr.Conjunction
/-!
Where the values of a relation come from: the uses of tables under a node, and the lineage of an
expression over its output, which is the set of expressions over table columns that it equals.

Uses of the same table in different inputs of a join or a union are told apart by numbering those of
later inputs after those of earlier ones.
-/
namespace QueryPlan

namespace Expr

/-- Every choice of one alternative for each column. The choice for the last column varies
fastest. -/
def choices : List (Nat × List Expr) → List (List (Nat × Expr))
  | [] => [[]]
  | (i, alternatives) :: rest =>
    alternatives.flatMap fun a => (choices rest).map ((i, a) :: ·)

/-- The conjuncts of all expressions that arise by replacing each column by one of its origins. An
expression without columns stays whole. There is no answer if a column has no origin. -/
def lineageOver (origins : Nat → Lineage) (e : Expr) : Lineage :=
  let used := e.columns.toList
  -- A constant is its own origin, whatever it is computed from.
  if used.isEmpty then some [e]
  else do
    let alternatives ← used.mapM fun i => do
      let es ← origins i
      if es.isEmpty then none else some (i, es)
    return OrderedSet.ofList <| (choices alternatives).flatMap fun choice =>
      (e.substitute fun i => choice.lookup i).conjuncts

end Expr

namespace TableRef

/-- Number of uses of a table. -/
def usesOf (refs : List TableRef) (name : List String) : Nat := refs.countP (·.name == name)

/-- Uses counted after earlier ones. Uses of one table stand side by side, so that earlier ones are
counted once for each table. -/
def after (earlier own : List TableRef) : List TableRef :=
  let counts := (own.map (·.name)).eraseReps.map fun name => (name, usesOf earlier name)
  own.map fun r => { r with entity := (counts.lookup r.name).getD 0 + r.entity }

/-- The use that an expression under a later input speaks of, counted after earlier ones; a use that
the input does not have stays. -/
def renumber (earlier own : List TableRef) (r : TableRef) : TableRef :=
  let count := usesOf earlier r.name
  if 0 < count && own.any (fun o => o.entity == r.entity && o.name == r.name) then
    { r with entity := count + r.entity }
  else r

end TableRef

namespace Lineage

/-- Expressions with their uses of tables counted after earlier ones. -/
def after (earlier own : List TableRef) (exprs : List Expr) : List Expr :=
  OrderedSet.latestOf (exprs.map (Expr.mapTables (TableRef.renumber earlier own)))

/-- Asks for the origins of columns one after the other, `none` as soon as one has none. -/
def originsOf (origin : Nat → Querying Lineage) :
    List Nat → Querying (Option (List (Nat × List Expr)))
  | [] => pure (some [])
  | i :: is => do
    match ← origin i with
    | none => return none
    | some exprs =>
      match ← originsOf origin is with
      | none => return none
      | some rest => return some ((i, exprs) :: rest)

/-- The lineage of an expression from the lineages of the columns it reads. -/
def ofColumns (origin : Nat → Querying Lineage) (e : Expr) : Querying Lineage := do
  match ← originsOf origin e.columns.toList with
  | none => return none
  | some found => return e.lineageOver fun i => found.lookup i

/-- The lineage of a field of a node. -/
def ofField (c : Cluster) (ask : Asking) (id : NodeId) (index : Nat) : Querying Lineage :=
  match Expr.field? (c.rowType id) index with
  | some column => ask.lineage id column
  | none => pure none

end Lineage

namespace LineageMethod

/-- Columns of a scan are columns of the first use of its table. -/
def ofScan (c : Cluster) (id : NodeId) (e : Expr) : Querying Lineage :=
  match (c.operator id).table? with
  | none => pure none
  | some table =>
    let origin := fun i => (c.rowType id).fields[i]?.map fun field =>
      [Expr.tableColumn ⟨table.name, 0⟩ i field.dataType]
    Lineage.ofColumns (fun i => pure (origin i)) e

/-- Only group columns can be traced through an aggregate. -/
def ofAggregate (c : Cluster) (ask : Asking) (id : NodeId) (e : Expr) : Querying Lineage :=
  match (c.operator id).aggregate? with
  | none => pure none
  | some (group, _) => do
    if e.columns.toList.any (group.size ≤ ·) then return none
    let input ← Querying.input c id 0
    let origin := fun i =>
      match group.nth? i with
      | some column => Lineage.ofField c ask input column
      | none => pure none
    Lineage.ofColumns origin e

/-- Whether a join returns the values of the columns as its inputs have them, not padded with
nulls. A full join can not be traced at all. -/
def isTraceable (joinType : JoinType) (leftCount arity : Nat) (used : ColumnSet) : Bool :=
  match joinType with
  | .inner => true
  | .left => !used.intersects (ColumnSet.range leftCount arity)
  | .right => !used.intersects (ColumnSet.range 0 leftCount)
  | .full => false

/-- Lineage through a join, uses of tables on the right being counted after those on the left. -/
def ofJoin (c : Cluster) (ask : Asking) (id : NodeId) (e : Expr) : Querying Lineage :=
  match (c.operator id).join? with
  | none => pure none
  | some (joinType, _) => do
    let left ← Querying.input c id 0
    let right ← Querying.input c id 1
    let leftCount := c.arity left
    if !isTraceable joinType leftCount (c.arity id) e.columns then return none
    let some leftRefs ← ask.tableRefs left | return none
    let some rightRefs ← ask.tableRefs right | return none
    let origin := fun i =>
      if i < leftCount then Lineage.ofField c ask left i
      else do
        let found ← Lineage.ofField c ask right (i - leftCount)
        return found.map (Lineage.after leftRefs rightRefs)
    Lineage.ofColumns origin e

/-- What is known of a union so far: the uses of tables in the inputs before, and the origins of the
columns asked for. -/
structure UnionOrigins where
  refs : List TableRef
  origins : List (Nat × List Expr)

/-- Adds origins to those of a column. -/
def addOrigins (column : Nat) (exprs : List Expr) :
    List (Nat × List Expr) → List (Nat × List Expr)
  | [] => [(column, OrderedSet.ofList exprs)]
  | (i, found) :: rest =>
    if i = column then (i, OrderedSet.insertAll found exprs) :: rest
    else (i, found) :: addOrigins column exprs rest

/-- Adds the origins of columns in one input, `none` if a column has none. -/
def originsInInput (c : Cluster) (ask : Asking) (input : NodeId) (earlier own : List TableRef) :
    List (Nat × List Expr) → List Nat → Querying (Option (List (Nat × List Expr)))
  | origins, [] => pure (some origins)
  | origins, i :: is => do
    match ← Lineage.ofField c ask input i with
    | none => return none
    | some exprs =>
      originsInInput c ask input earlier own
        (addOrigins i (Lineage.after earlier own exprs) origins) is

/-- Adds the origins of columns in every input. -/
def originsInInputs (c : Cluster) (ask : Asking) (used : List Nat) :
    UnionOrigins → List NodeId → Querying (Option UnionOrigins)
  | found, [] => pure (some found)
  | found, input :: inputs => do
    let some own ← ask.tableRefs input | return none
    let some origins ← originsInInput c ask input found.refs own found.origins used | return none
    let refs := OrderedSet.insertAll found.refs (TableRef.after found.refs own)
    originsInInputs c ask used ⟨refs, origins⟩ inputs

/-- A value of a union may come from any input. -/
def ofUnion (c : Cluster) (ask : Asking) (id : NodeId) (e : Expr) : Querying Lineage := do
  match ← originsInInputs c ask e.columns.toList ⟨[], []⟩ (c.inputs id) with
  | none => return none
  | some found => return e.lineageOver fun i => found.origins.lookup i

/-- The lineage of a projected column is that of its expression. -/
def ofProjection (c : Cluster) (ask : Asking) (id : NodeId) (e : Expr) : Querying Lineage :=
  match (c.operator id).projection? with
  | none => pure none
  | some projected => do
    let input ← Querying.input c id 0
    let origin := fun i =>
      match projected[i]? with
      | some (expr, _) => ask.lineage input expr
      | none => pure none
    Lineage.ofColumns origin e

/-- The lineage of an expression over a node by this method. -/
def answer (c : Cluster) (ask : Asking) (id : NodeId) (e : Expr) :
    LineageMethod → Querying Lineage
  | unknown => pure none
  | tableScan => ofScan c id e
  | aggregate => ofAggregate c ask id e
  | join => ofJoin c ask id e
  | union => ofUnion c ask id e
  | project => ofProjection c ask id e
  | firstInput => do ask.lineage (← Querying.input c id 0) e
  | subset =>
    match (c.node id).chosenMember? with
    | some member => ask.lineage member e
    | none => pure none
  | again => ask.lineage id e

end LineageMethod

namespace TableRefsMethod

/-- Uses in every input, those of later inputs counted after those of earlier ones. -/
def ofInputs (ask : Asking) : List TableRef → List NodeId → Querying (Option (List TableRef))
  | refs, [] => pure (some refs)
  | refs, input :: inputs => do
    match ← ask.tableRefs input with
    | some own => ofInputs ask (OrderedSet.insertAll refs (TableRef.after refs own)) inputs
    | none => return none

/-- The uses of tables under a node by this method. -/
def answer (c : Cluster) (ask : Asking) (id : NodeId) :
    TableRefsMethod → Querying (Option (List TableRef))
  | unknown => pure none
  | tableScan => pure ((c.operator id).table?.map fun table => [⟨table.name, 0⟩])
  | allInputs => ofInputs ask [] (c.inputs id)
  | firstInput => do ask.tableRefs (← Querying.input c id 0)
  | subset =>
    match (c.node id).chosenMember? with
    | some member => ask.tableRefs member
    | none => pure none
  | again => ask.tableRefs id

end TableRefsMethod

end QueryPlan
