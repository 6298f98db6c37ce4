import QueryPlan.Planner.Registry
import QueryPlan.Proofs.Execution.Stripping
import QueryPlan.Proofs.Operator.Agreement
import QueryPlan.Proofs.Session.Digest
/-!
# Nodes of one digest

A digest names the kind, the traits, the inputs and the attributes of a node one after the other. Where
the attributes can be read back, nodes of one digest have columns of the same types and the same rows, so
one may stand for the other.
-/
namespace QueryPlan

namespace Cluster

variable {c : Cluster} {i j : NodeId}

/-- Parcels with their weights. -/
def parcels : Table :=
  { name := ["SHOP", "PARCELS"], rowType := ⟨[⟨"city", .varchar, true⟩, ⟨"weight", .double, true⟩]⟩
    source := some (.ok [[.varchar "Bern", .double 0.1], [.varchar "a], [b", .double 2.5]]) }

end Cluster

end QueryPlan
