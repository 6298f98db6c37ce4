import QueryPlan.Metadata.RowCount
import QueryPlan.Metadata.Collations
import QueryPlan.Metadata.Distinct
import QueryPlan.Metadata.Lineage
/-!
Asking questions about nodes.

A question goes to the method that the session has for the kind of the node, and the answer is
remembered. Methods ask further questions; as every question that is being answered is remembered,
no way of questions meets the same one twice, and a bound on the length of such ways is never
reached unless questions grow without end.
-/
namespace QueryPlan

namespace Asking

/-- Refuses every question. -/
def exhausted : Asking where
  rowCount := fun _ => throw (.fault .unbounded)
  collations := fun _ => throw (.fault .unbounded)
  distinct := fun _ _ _ => throw (.fault .unbounded)
  lineage := fun _ _ => throw (.fault .unbounded)
  tableRefs := fun _ => throw (.fault .unbounded)

/-- Answers questions by the session's methods, which ask further questions in the given way. Row
counts are not negative. -/
def through (c : Cluster) (next : Asking) : Asking where
  rowCount := fun id =>
    Shelf.rowCount.memoize id id .rowCount do
      let rows ← (c.methods.rowCount.methodFor (c.kind id)).answer c next id
      return Double.max rows 0.0
  collations := fun id =>
    Shelf.collations.memoize id id .collations
      ((c.methods.collations.methodFor (c.kind id)).answer c next id)
  distinct := fun id columns predicate =>
    Shelf.distinct.memoize ⟨id, columns, predicate⟩ id .distinct
      ((c.methods.distinct.methodFor (c.kind id)).answer c next id columns predicate)
  lineage := fun id e =>
    Shelf.lineage.memoize ⟨id, e⟩ id .lineage
      ((c.methods.lineage.methodFor (c.kind id)).answer c next id e)
  tableRefs := fun id =>
    Shelf.tableRefs.memoize id id .tableRefs
      ((c.methods.tableRefs.methodFor (c.kind id)).answer c next id)

/-- Answers questions with at most the given number of questions inside one another. -/
def within (c : Cluster) : Nat → Asking
  | 0 => exhausted
  | depth + 1 => through c (within c depth)

/-- Answers questions about the nodes of a session. -/
def of (c : Cluster) : Asking := within c (64 * (c.size + 1))

end Asking

end QueryPlan
