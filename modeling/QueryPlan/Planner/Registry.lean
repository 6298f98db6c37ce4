import Std.Data.TreeMap
import QueryPlan.Cluster.Rebuild
/-!
Nodes that represent all nodes with their digest.

Before a planner changes a plan it registers it: inputs are replaced by their representatives, and
the node over them becomes the representative of its digest, unless there is one already. So nodes
that are written alike become one node, and a change that leads back to a known plan changes
nothing.
-/
namespace QueryPlan

/-- The node registered for each digest. -/
structure Registry where
  representatives : Std.TreeMap String NodeId := {}

namespace Registry

/-- The node registered for a digest. -/
def find? (r : Registry) (digest : String) : Option NodeId := r.representatives[digest]?

/-- Whether a node of a session is registered. -/
def holds (r : Registry) (c : Cluster) (id : NodeId) : Bool := r.find? (c.digest id) == some id

/-- Registers a node for a digest without one. -/
def add (r : Registry) (digest : String) (id : NodeId) : Registry :=
  ⟨r.representatives.insert digest id⟩

end Registry

/-- A request to a session with a registry: an outcome, and registry and session afterwards. What
was registered before a failure stays so. -/
abbrev Registering (α : Type) := ExceptT PlanError (StateT Registry (StateM Cluster)) α

namespace Registering

/-- A request that leaves the registry alone. -/
def ofPlanning {α : Type} (request : Planning α) : Registering α :=
  ExceptT.mk fun registry c =>
    match request.run c with
    | (outcome, c') => ((outcome, registry), c')

instance : MonadLift Planning Registering := ⟨ofPlanning⟩

/-- A request that reads the registry and the session. -/
def read {α : Type} (f : Registry → Cluster → α) : Registering α :=
  ExceptT.mk fun registry c => ((.ok (f registry c), registry), c)

/-- The session as it is. -/
def session : Registering Cluster := read fun _ c => c

end Registering

namespace Registry

/-- The representative of a node's digest, which the node becomes if there is none. -/
def represent (id : NodeId) : Registering NodeId := do
  let digest ← Registering.read fun _ c => c.digest id
  match ← Registering.read fun r _ => r.find? digest with
  | some registered => return registered
  | none =>
    modifyThe Registry (·.add digest id)
    return id

/-- Registers a node after its inputs and returns its representative. A registered node stays as it
is. Fails if an input's representative has other column types, or if the node over the
representatives is not valid. -/
def ensureRegistered (id : NodeId) : Registering NodeId := do
  if ← Registering.read (·.holds · id) then return id
  let below ← Registering.read fun _ c => c.inputsBelow id
  let inputs ← below.mapM fun ⟨input, _⟩ => do
    let registered ← ensureRegistered input
    Cluster.checkSameType input registered
    return registered
  let copied ← Cluster.copyOver id inputs
  Planning.inspect (·.check copied)
  represent copied
termination_by id

end Registry

end QueryPlan
