import QueryPlan.Metadata.Asking
import QueryPlan.Cluster.Explain
import QueryPlan.Text.Grid
/-!
Plans as tables: one row for each line of the plan, with the row count and the collations of its
node.
-/
namespace QueryPlan.Cluster

/-- The outcome of a query as a cell: the answer, or the description of a cycle. A fault breaks the
table off. -/
def cellText {α : Type} (query : Querying α) (text : α → String) :
    ExceptT PlanError (StateM Memory) String :=
  ExceptT.mk fun m =>
    match query.run m with
    | (.ok answer, m') => (.ok (text answer), m')
    | (.error (.fault e), m') => (.error e, m')
    | (.error e, m') => (.ok e.text, m')

/-- The cells of a node: its number, its line in the plan, its row count and its collations. -/
def metadataCells (c : Cluster) (ask : Asking) (id : NodeId) (depth : Nat) :
    ExceptT PlanError (StateM Memory) (List String) := do
  let rows ← cellText (ask.rowCount id) Decimal.onePlaceText
  let collations ← cellText (ask.collations id) fun collations =>
    ", ".intercalate (collations.map Collation.text)
  return [toString id, c.lineText id depth, rows, collations]

/-- The plan under a node as a table. -/
def explainWithMetadata (c : Cluster) (root : NodeId) : Except PlanError String :=
  let ask := Asking.of c
  let rows := (c.outline 0 root).mapM fun (id, depth) => c.metadataCells ask id depth
  match rows.run {} with
  | (.ok cells, _) => .ok (Grid.render ["id", "operator", "rows", "collations"] cells)
  | (.error e, _) => .error e

end QueryPlan.Cluster
