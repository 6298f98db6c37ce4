import QueryPlan.Cluster.Basic
/-!
Whether columns of a relation hold a unique key.
-/
namespace QueryPlan.Cluster

/-- Input columns that the given output columns of a projection copy. -/
def copiedColumns (projected : List (Expr × String)) (columns : ColumnSet) : ColumnSet :=
  ColumnSet.ofList (columns.toList.filterMap fun i => projected[i]?.bind fun p => p.1.asColumn?)

/-- Whether no two rows of a node agree on the columns, `none` if unknown. The first argument bounds
the length of the way to the tables. -/
def uniqueWithin (c : Cluster) : Nat → NodeId → ColumnSet → Option Bool
  | 0, _, _ => none
  | depth + 1, id, columns =>
    let n := c.node id
    let first := n.inputs.head?
    match n.operator with
    | .scan _ table => some (table.isKey columns)
    | .aggregate _ group _ => some (columns.includes (ColumnSet.range 0 group.size))
    | .project _ projected =>
      let copied := copiedColumns projected columns
      match first.bind fun input => c.uniqueWithin depth input copied with
      | some true => some true
      | _ => none
    | .subset _ => n.chosenMember?.bind fun member => c.uniqueWithin depth member columns
    | .filter _ _ | .sort _ _ _ _ | .exchange _ | .sortExchange _ _ =>
      first.bind fun input => c.uniqueWithin depth input columns
    | _ => none

/-- Whether no two rows of a node agree on the columns, `none` if unknown. -/
def areUnique (c : Cluster) (id : NodeId) (columns : ColumnSet) : Option Bool :=
  c.uniqueWithin (c.size + 1) id columns

end QueryPlan.Cluster
