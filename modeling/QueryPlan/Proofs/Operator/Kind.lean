import Mathlib.Tactic.Common
import QueryPlan.Operator.Basic
/-!
# Kinds and operators

A kind is told by its name, and the kind of an operator tells which operator it is: all but conventions
and join algorithms of one operator have one position among the kinds.
-/
namespace QueryPlan

namespace Kind

theorem ofText?_text (k : Kind) : ofText? k.text = some k := by cases k <;> decide

theorem text_inj {k k' : Kind} (h : k.text = k'.text) : k = k' :=
  Option.some.inj (by rw [← ofText?_text k, h, ofText?_text k'])

theorem comma_not_mem_text (k : Kind) : ',' ∉ k.text.toList := by cases k <;> decide

theorem hash_not_mem_text (k : Kind) : '#' ∉ k.text.toList := by cases k <;> decide

theorem point_not_mem_text (k : Kind) : '.' ∉ k.text.toList := by cases k <;> decide

/-- Position among the operators of those of a kind; the last one is that of subsets. -/
def position : Kind → Nat
  | logicalTableScan | enumerableTableScan => 0
  | logicalValues | enumerableValues => 1
  | logicalFilter | enumerableFilter => 2
  | logicalProject | enumerableProject => 3
  | logicalJoin | enumerableHashJoin | enumerableMergeJoin | enumerableNestedLoopJoin
  | enumerableSemiJoin => 4
  | logicalCorrelate | enumerableCorrelate => 5
  | logicalAggregate | enumerableAggregate => 6
  | logicalSort | enumerableSort => 7
  | logicalUnion | enumerableUnion => 8
  | logicalIntersect => 9
  | logicalMinus => 10
  | logicalExchange => 11
  | enumerableSortExchange => 12
  | _ => 13

end Kind

namespace Operator

theorem position_kind (o : Operator) : o.kind.position = o.ctorIdx := by
  cases o with
  | join algorithm => cases algorithm <;> rfl
  | scan c | values c | filter c | project c | correlate c | aggregate c | sort c | union c =>
    cases c <;> rfl
  | _ => rfl

variable {o o' : Operator} (h : o.kind = o'.kind)

include h

theorem ctorIdx_congr : o.ctorIdx = o'.ctorIdx := by
  rw [← position_kind, h, position_kind]

theorem inputCount?_congr : o.inputCount? = o'.inputCount? := by
  have hctor := ctorIdx_congr h
  cases o <;> cases o' <;> first | rfl | cases hctor

theorem isSubset_congr : o.isSubset = o'.isSubset := by
  have hctor := ctorIdx_congr h
  cases o <;> cases o' <;> first | rfl | cases hctor

end Operator

end QueryPlan
