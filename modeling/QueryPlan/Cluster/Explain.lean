import QueryPlan.Cluster.Basic
/-!
Plans as text: one line for each node, inputs below their node and indented by two more blanks. A
node with several users is written under each of them, and subsets are leaves.
-/
namespace QueryPlan.Cluster

/-- Kind and attributes of a node. -/
def nodeText (c : Cluster) (id : NodeId) : String :=
  (c.kind id).text ++ "(" ++ (c.node id).attributes.render ++ ")"

/-- A node and the nodes under it with their depths, in the order in which a plan shows them. -/
def outline (c : Cluster) (depth : Nat) (id : NodeId) : List (NodeId × Nat) :=
  (id, depth) :: (c.inputsBelow id).flatMap fun ⟨j, _⟩ => outline c (depth + 1) j
termination_by id

/-- A line of a plan. -/
def lineText (c : Cluster) (id : NodeId) (depth : Nat) : String :=
  String.ofList (List.replicate (2 * depth) ' ') ++ c.nodeText id

/-- The plan under a node. -/
def explain (c : Cluster) (root : NodeId) : String :=
  "\n".intercalate ((c.outline 0 root).map fun (id, depth) => c.lineText id depth)

end QueryPlan.Cluster
