import QueryPlan.Cluster.Walk
/-!
The plan under a root as a graph, with an edge from every node to each of its inputs.
-/
namespace QueryPlan.Cluster

/-- A root and the nodes under it, each once, breadth first. The inputs of a node are visited from
the last to the first. -/
def topDown (c : Cluster) (root : NodeId) : List NodeId :=
  BreadthFirst.walk (fun id => (c.inputs id).reverse) (c.size + 1) root

/-- The nodes of `topDown` in the opposite sequence. -/
def bottomUp (c : Cluster) (root : NodeId) : List NodeId := (c.topDown root).reverse

/-- The nodes of a plan in a match order. -/
def nodesIn (c : Cluster) (root : NodeId) : MatchOrder → List NodeId
  | .topDown => c.topDown root
  | .bottomUp => c.bottomUp root

/-- The nodes under a root that read a node, once for each input that they read it by. Those that
are found last come first. -/
def parents (c : Cluster) (root id : NodeId) : List NodeId :=
  ((c.breadthFirst root).flatMap fun user =>
    ((c.inputs user).filter (· = id)).map fun _ => user).reverse

end QueryPlan.Cluster
