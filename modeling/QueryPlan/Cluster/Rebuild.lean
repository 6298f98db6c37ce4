import QueryPlan.Cluster.Edit
/-!
Rebuilding plans bottom up.

Changing a node deep in a plan means copying every node above it over new inputs. A rebuild does
so once for each node, so that shared inputs stay shared. It keeps a record of what became of each
node, which is also the sequence in which the nodes were visited.
-/
namespace QueryPlan

/-- What became of a node: its copy over rebuilt inputs, and what stands for it in the result. -/
structure Rebuilt where
  before : NodeId
  copied : NodeId
  result : NodeId
  deriving DecidableEq, Repr

/-- A step of a rebuild. The state is the record, last node first. -/
abbrev Rebuilding (α : Type) := StateT (List Rebuilt) Planning α

namespace Cluster

/-- Fails unless one node has the column types of another that it replaces. -/
def checkSameType (before after : NodeId) : Planning Unit :=
  Planning.inspect fun c =>
    if (c.rowType before).isCompatible (c.rowType after) then .ok ()
    else .error (.rowTypeMismatch before (c.rowType before) (c.rowType after))

/-- What the replacement offered for a copied node, if any, makes of it. -/
def settle (replacement : NodeId → Planning (Option NodeId)) (copied : NodeId) :
    Planning NodeId := do
  match ← replacement copied with
  | some other =>
    checkSameType copied other
    return other
  | none => return copied

/-- Rebuilds a node after its inputs, unless it has been rebuilt. -/
def rebuildNode (replacement : NodeId → Planning (Option NodeId)) (id : NodeId) :
    Rebuilding NodeId := do
  match (← get).find? (·.before == id) with
  | some done => return done.result
  | none =>
    let below ← Planning.read (·.inputsBelow id)
    let inputs ← below.mapM fun ⟨input, _⟩ => rebuildNode replacement input
    let copied ← copyOver id inputs
    let result ← settle replacement copied
    modify (⟨id, copied, result⟩ :: ·)
    return result
termination_by id

/-- Rebuilds the plan under a node. `replacement` sees every node over its final inputs and may
offer another node of compatible row type for it. Returns the new root and the record, first node
first. -/
def rebuild (replacement : NodeId → Planning (Option NodeId)) (root : NodeId) :
    Planning (NodeId × List Rebuilt) := do
  let (result, record) ← (rebuildNode replacement root).run []
  return (result, record.reverse)

/-- Replaces every use of a node under a root. -/
def replace (root target replacement : NodeId) : Planning NodeId := do
  let (result, _) ← rebuild (fun id => pure (if id = target then some replacement else none)) root
  return result

/-- Progress of stripping: what has become of nodes, and the subsets on the way to the current
node. -/
structure Stripping where
  done : List (NodeId × NodeId) := []
  active : List NodeId := []

/-- Strips the subsets from the plan under a node. The first argument bounds the length of the way
from the root, on which a subset is met at most once. -/
def stripNode : Nat → NodeId → StateT Stripping Planning NodeId
  | 0, _ => throw .unbounded
  | depth + 1, id => do
    match (← get).done.lookup id with
    | some result => return result
    | none =>
      let n ← Planning.read (·.node id)
      if n.operator.isSubset then
        match n.chosenMember? with
        | none => throw (.invalidNode id .emptySubset)
        | some member =>
          -- Inputs come before their users, so only members can lead back.
          if (← get).active.contains id then throw (.invalidNode id .subsetReachesItself)
          modify fun s => { s with active := id :: s.active }
          let result ← stripNode depth member
          modify fun s => { done := (id, result) :: s.done, active := s.active.erase id }
          return result
      else
        let inputs ← n.inputs.mapM (stripNode depth)
        let result ← copyOver id inputs
        modify fun s => { s with done := (id, result) :: s.done }
        return result

/-- Replaces each subset under a root by the member that stands for it. Fails at a subset that is
empty or leads back to itself through the members chosen. -/
def stripSubsets (root : NodeId) : Planning NodeId := do
  let size ← Planning.read size
  StateT.run' (stripNode ((size + 1) * (size + 1)) root) {}

end Cluster

end QueryPlan
