import QueryPlan.Operator.Kind
/-!
Which method answers a metadata question for a kind of node.

A method registered for a kind serves its descendants as well, unless one of them has a method of
its own, and a fallback serves the kinds without any. Registering again replaces the method of a
kind.
-/
namespace QueryPlan

/-- Methods of one metadata question by kind of node. -/
structure Dispatch (μ : Type) where
  entries : List (Kind × μ)
  fallback : μ

namespace Dispatch

/-- Gives a kind, and the kinds below it without a method of their own, a method. -/
def register {μ : Type} (d : Dispatch μ) (kind : Kind) (method : μ) : Dispatch μ :=
  { d with entries := (kind, method) :: d.entries }

/-- The method of the nearest kind above, else the fallback. -/
def methodFor {μ : Type} (d : Dispatch μ) (kind : Kind) : μ :=
  (kind.ancestors.findSome? fun k => List.lookup k d.entries).getD d.fallback

end Dispatch

/-- Methods of estimating row counts. -/
inductive RowCountMethod where
  | unknown
  | tableScan
  | filter
  | firstInput
  | join
  | semiJoin
  | correlate
  | aggregate
  | sort
  | setOperation
  | values
  | subset
  /-- Asks for the row count of the same node. -/
  | again
  /-- The same number for every node. -/
  | fixed (rows : Float)

/-- Methods of finding the orders that a relation follows. -/
inductive CollationsMethod where
  | unknown
  | tableScan
  | firstInput
  | sort
  | sortExchange
  | project
  | values
  | mergeJoin
  | orderedLeft
  | subset
  /-- Asks for the collations of the same node. -/
  | again

/-- Methods of estimating numbers of distinct rows. -/
inductive DistinctMethod where
  | unknown
  | filter
  | firstInput
  | join
  | semiJoin
  | aggregate
  | project
  | union
  | values
  | subset
  /-- Asks for the same number of the same node. -/
  | again

/-- Methods of tracing expressions back to table columns. -/
inductive LineageMethod where
  | unknown
  | tableScan
  | aggregate
  | join
  | union
  | project
  | firstInput
  | subset
  /-- Asks for the same lineage in the same node. -/
  | again

/-- Methods of listing the uses of tables under a node. -/
inductive TableRefsMethod where
  | unknown
  | tableScan
  | allInputs
  | firstInput
  | subset
  /-- Asks for the uses under the same node. -/
  | again

/-- The methods of a session for every metadata question. -/
structure Methods where
  rowCount : Dispatch RowCountMethod
  collations : Dispatch CollationsMethod
  distinct : Dispatch DistinctMethod
  lineage : Dispatch LineageMethod
  tableRefs : Dispatch TableRefsMethod

namespace Methods

/-- The methods that a session starts with. -/
def builtin : Methods where
  rowCount := {
    fallback := .unknown
    entries := [
      (.tableScan, .tableScan), (.filter, .filter), (.project, .firstInput),
      (.exchange, .firstInput), (.join, .join), (.semiJoin, .semiJoin), (.correlate, .correlate),
      (.aggregate, .aggregate), (.sort, .sort), (.setOperation, .setOperation),
      (.values, .values), (.subset, .subset)] }
  collations := {
    fallback := .unknown
    entries := [
      (.tableScan, .tableScan), (.filter, .firstInput), (.logicalExchange, .firstInput),
      (.sort, .sort), (.sortExchange, .sortExchange), (.project, .project), (.values, .values),
      (.enumerableMergeJoin, .mergeJoin), (.enumerableHashJoin, .orderedLeft),
      (.enumerableNestedLoopJoin, .orderedLeft), (.semiJoin, .firstInput),
      (.correlate, .firstInput), (.subset, .subset)] }
  distinct := {
    fallback := .unknown
    entries := [
      (.filter, .filter), (.sort, .firstInput), (.exchange, .firstInput), (.join, .join),
      (.semiJoin, .semiJoin), (.aggregate, .aggregate), (.project, .project), (.union, .union),
      (.values, .values), (.subset, .subset)] }
  lineage := {
    fallback := .unknown
    entries := [
      (.tableScan, .tableScan), (.aggregate, .aggregate), (.join, .join), (.semiJoin, .unknown),
      (.union, .union), (.project, .project), (.filter, .firstInput), (.sort, .firstInput),
      (.exchange, .firstInput), (.subset, .subset)] }
  tableRefs := {
    fallback := .unknown
    entries := [
      (.tableScan, .tableScan), (.join, .allInputs), (.union, .allInputs),
      (.aggregate, .firstInput), (.project, .firstInput), (.filter, .firstInput),
      (.sort, .firstInput), (.exchange, .firstInput), (.semiJoin, .firstInput),
      (.subset, .subset)] }

instance : Inhabited Methods := ⟨builtin⟩

end Methods

end QueryPlan
