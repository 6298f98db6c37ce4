import QueryPlan.Cluster.Basic
/-!
Walks over plans in breadth first order: level by level, the nodes of a level in the order in which
the level before it leads to them for the first time.

A walk over a graph goes by whole levels. The one over the inputs of a plan goes node by node, and
looks for the nodes under a node when it visits that one.
-/
namespace QueryPlan

namespace BreadthFirst

/-- Adds a node to the next level and to the nodes seen, unless it has been seen. -/
def discover (found : List NodeId × List NodeId) (id : NodeId) : List NodeId × List NodeId :=
  if id ∈ found.2 then found else (found.1 ++ [id], id :: found.2)

/-- The next level after a level, and the nodes seen up to it. -/
def nextLevel (next : NodeId → List NodeId) (level seen : List NodeId) :
    List NodeId × List NodeId :=
  (level.flatMap next).foldl discover ([], seen)

/-- A level and the levels after it, of which there are at most the given number in all. -/
def levels (next : NodeId → List NodeId) : Nat → List NodeId → List NodeId → List NodeId
  | 0, _, _ => []
  | count + 1, level, seen =>
    match level with
    | [] => []
    | level =>
      let (level', seen') := nextLevel next level seen
      level ++ levels next count level' seen'

/-- Nodes reached from a root, in breadth first order. -/
def walk (next : NodeId → List NodeId) (count : Nat) (root : NodeId) : List NodeId :=
  levels next count [root] [root]

end BreadthFirst

/-- A walk under way, which goes node by node. Both levels are stacks. -/
structure Frontier where
  /-- The rest of the level that is being visited, the next node on top. -/
  level : List NodeId
  /-- What has been found of the level after it, the last node found on top. -/
  found : List NodeId
  /-- Every node found so far. -/
  seen : List NodeId

namespace Frontier

/-- Before the first visit the root is found. -/
def start (root : NodeId) : Frontier := ⟨[root], [], [root]⟩

/-- Puts a node on the stack of the next level, unless it was found before. -/
def find (f : Frontier) (id : NodeId) : Frontier :=
  if id ∈ f.seen then f else { f with found := id :: f.found, seen := id :: f.seen }

/-- Goes on to the next level once a level is done. Turned around, its stack has the node on top that
was found first. -/
def refill (f : Frontier) : Frontier :=
  if f.level.isEmpty then { f with level := f.found.reverse, found := [] } else f

/-- Visits one node and finds those that it leads to, `none` if there is no node to visit. -/
def visit? (next : NodeId → List NodeId) (f : Frontier) : Option (NodeId × Frontier) :=
  let f := f.refill
  match f.level with
  | [] => none
  | id :: rest => some (id, (next id).foldl find { f with level := rest })

/-- The nodes visited from here on, of which there are at most the given number. -/
def visits (next : NodeId → List NodeId) : Nat → Frontier → List NodeId
  | 0, _ => []
  | count + 1, f =>
    match f.visit? next with
    | none => []
    | some (id, f') => id :: visits next count f'

end Frontier

namespace Cluster

/-- A node and all nodes under it, each once, in breadth first order from first to last input. -/
def breadthFirst (c : Cluster) (root : NodeId) : List NodeId :=
  (Frontier.start root).visits c.inputs (c.size + 1)

/-- A node and all nodes under it in ascending order. -/
def descendants (c : Cluster) (root : NodeId) : List NodeId := (c.breadthFirst root).mergeSort

/-- The tables that are scanned under a node, each once, in breadth first order. -/
def tables (c : Cluster) (root : NodeId) : List Table :=
  ((c.breadthFirst root).filterMap fun id => (c.operator id).table?).eraseDupsBy (·.same ·)

end Cluster

end QueryPlan
