/-!
Kinds of relational expressions and their hierarchy.

Every concrete kind, such as a logical filter, descends from an abstract one, such as a filter, and
every line of descent ends at the kind of all relations. What is said about a kind holds of its
descendants.
-/
namespace QueryPlan

/-- Kind of a relational expression. -/
inductive Kind where
  | relation | tableScan | logicalTableScan | enumerableTableScan | filter | logicalFilter
  | enumerableFilter | project | logicalProject | enumerableProject | join | logicalJoin
  | enumerableHashJoin | enumerableMergeJoin | enumerableNestedLoopJoin | semiJoin
  | enumerableSemiJoin | correlate | logicalCorrelate | enumerableCorrelate | aggregate
  | logicalAggregate | enumerableAggregate | sort | logicalSort | enumerableSort | setOperation
  | union | logicalUnion | enumerableUnion | intersect | logicalIntersect | minus
  | logicalMinus | values | logicalValues | enumerableValues | exchange | logicalExchange
  | sortExchange | enumerableSortExchange | subset
  deriving DecidableEq, Repr, Inhabited

namespace Kind

/-- Every kind. -/
def all : List Kind :=
  [relation, tableScan, logicalTableScan, enumerableTableScan, filter, logicalFilter,
    enumerableFilter, project, logicalProject, enumerableProject, join, logicalJoin,
    enumerableHashJoin, enumerableMergeJoin, enumerableNestedLoopJoin, semiJoin,
    enumerableSemiJoin, correlate, logicalCorrelate, enumerableCorrelate, aggregate,
    logicalAggregate, enumerableAggregate, sort, logicalSort, enumerableSort, setOperation,
    union, logicalUnion, enumerableUnion, intersect, logicalIntersect, minus, logicalMinus,
    values, logicalValues, enumerableValues, exchange, logicalExchange, sortExchange,
    enumerableSortExchange, subset]

/-- Name of a kind in digests and plans. -/
def text : Kind → String
  | relation => "RelNode"
  | tableScan => "TableScan"
  | logicalTableScan => "LogicalTableScan"
  | enumerableTableScan => "EnumerableTableScan"
  | filter => "Filter"
  | logicalFilter => "LogicalFilter"
  | enumerableFilter => "EnumerableFilter"
  | project => "Project"
  | logicalProject => "LogicalProject"
  | enumerableProject => "EnumerableProject"
  | join => "Join"
  | logicalJoin => "LogicalJoin"
  | enumerableHashJoin => "EnumerableHashJoin"
  | enumerableMergeJoin => "EnumerableMergeJoin"
  | enumerableNestedLoopJoin => "EnumerableNestedLoopJoin"
  | semiJoin => "SemiJoin"
  | enumerableSemiJoin => "EnumerableSemiJoin"
  | correlate => "Correlate"
  | logicalCorrelate => "LogicalCorrelate"
  | enumerableCorrelate => "EnumerableCorrelate"
  | aggregate => "Aggregate"
  | logicalAggregate => "LogicalAggregate"
  | enumerableAggregate => "EnumerableAggregate"
  | sort => "Sort"
  | logicalSort => "LogicalSort"
  | enumerableSort => "EnumerableSort"
  | setOperation => "SetOp"
  | union => "Union"
  | logicalUnion => "LogicalUnion"
  | enumerableUnion => "EnumerableUnion"
  | intersect => "Intersect"
  | logicalIntersect => "LogicalIntersect"
  | minus => "Minus"
  | logicalMinus => "LogicalMinus"
  | values => "Values"
  | logicalValues => "LogicalValues"
  | enumerableValues => "EnumerableValues"
  | exchange => "Exchange"
  | logicalExchange => "LogicalExchange"
  | sortExchange => "SortExchange"
  | enumerableSortExchange => "EnumerableSortExchange"
  | subset => "RelSubset"

/-- The kind of that name. -/
def ofText? (t : String) : Option Kind := all.find? (·.text == t)

/-- The kind directly above a kind. -/
def parent? : Kind → Option Kind
  | relation => none
  | tableScan | filter | project | join | correlate | aggregate | sort | setOperation
  | values | exchange | subset => some relation
  | logicalTableScan | enumerableTableScan => some tableScan
  | logicalFilter | enumerableFilter => some filter
  | logicalProject | enumerableProject => some project
  | logicalJoin | enumerableHashJoin | enumerableMergeJoin | enumerableNestedLoopJoin
  | semiJoin => some join
  | enumerableSemiJoin => some semiJoin
  | logicalCorrelate | enumerableCorrelate => some correlate
  | logicalAggregate | enumerableAggregate => some aggregate
  | logicalSort | enumerableSort => some sort
  | union | intersect | minus => some setOperation
  | logicalUnion | enumerableUnion => some union
  | logicalIntersect => some intersect
  | logicalMinus => some minus
  | logicalValues | enumerableValues => some values
  | logicalExchange | sortExchange => some exchange
  | enumerableSortExchange => some sortExchange

/-- A kind and the kinds above it, up to the given number of steps. -/
def ancestorsWithin : Nat → Kind → List Kind
  | 0, k => [k]
  | steps + 1, k =>
    match k.parent? with
    | none => [k]
    | some p => k :: ancestorsWithin steps p

/-- A kind and all kinds above it. No kind is more than three steps below the top. -/
def ancestors (k : Kind) : List Kind := ancestorsWithin 3 k

/-- Whether a kind is another one or descends from it. -/
def isA (k other : Kind) : Bool := k.ancestors.contains other

theorem relation_mem_ancestors (k : Kind) : relation ∈ k.ancestors := by
  cases k <;> decide

theorem self_mem_ancestors (k : Kind) : k ∈ k.ancestors := by
  cases k <;> decide

end Kind

end QueryPlan
