import QueryPlan.Table
import QueryPlan.Operator.Attributes
import QueryPlan.Operator.Join
/-!
Relational operators.

An operator holds the attributes of one node of a plan; inputs, traits and identity belong to the
node. Operators of one meaning that exist in the logical and in the enumerable convention differ
in a `Convention`, and joins in the algorithm that computes them.
-/
namespace QueryPlan

/-- How a join is computed. A semi join returns the left rows that have a match. -/
inductive JoinAlgorithm where
  | logical
  | hash
  | merge
  | nestedLoop
  | semi
  deriving DecidableEq, Repr, Inhabited

/-- A relational operator. -/
inductive Operator where
  | scan (convention : Convention) (table : Table)
  | values (convention : Convention) (rowType : RowType) (tuples : List Row)
  | filter (convention : Convention) (condition : Expr)
  /-- One output column for each expression with its name. -/
  | project (convention : Convention) (columns : List (Expr × String))
  | join (algorithm : JoinAlgorithm) (joinType : JoinType) (condition : Expr)
  | correlate (convention : Convention) (correlation : Nat) (required : ColumnSet)
      (joinType : CorrelateType)
  | aggregate (convention : Convention) (group : ColumnSet) (calls : List AggregateCall)
  /-- Sorts, then skips `offset` rows and returns at most `fetch` rows. -/
  | sort (convention : Convention) (collation : Collation) (offset : Nat) (fetch : Option Nat)
  | union (convention : Convention) (all : Bool)
  | intersect (all : Bool)
  | minus (all : Bool)
  | exchange (distribution : Distribution)
  | sortExchange (distribution : Distribution) (collation : Collation)
  /-- A place for interchangeable expressions of one row type. -/
  | subset (rowType : RowType)
  deriving Inhabited

namespace Operator

/-- Names for projected expressions; the ones that are missing are called after their position. -/
def projectionNames (count : Nat) (names : List String) : List String :=
  (List.range count).map fun i => names[i]?.getD ("$f" ++ toString i)

/-- A projection of expressions under names, which may be too few. -/
def projectOf (convention : Convention) (exprs : List Expr) (names : List String) : Operator :=
  project convention (exprs.zip (projectionNames exprs.length names))

/-- One kind for the logical convention and one for the enumerable convention. -/
def kindBy (logical enumerable : Kind) : Convention → Kind
  | .none => logical
  | .enumerable => enumerable

def kind : Operator → Kind
  | scan c _ => kindBy .logicalTableScan .enumerableTableScan c
  | values c _ _ => kindBy .logicalValues .enumerableValues c
  | filter c _ => kindBy .logicalFilter .enumerableFilter c
  | project c _ => kindBy .logicalProject .enumerableProject c
  | join .logical _ _ => .logicalJoin
  | join .hash _ _ => .enumerableHashJoin
  | join .merge _ _ => .enumerableMergeJoin
  | join .nestedLoop _ _ => .enumerableNestedLoopJoin
  | join .semi _ _ => .enumerableSemiJoin
  | correlate c _ _ _ => kindBy .logicalCorrelate .enumerableCorrelate c
  | aggregate c _ _ => kindBy .logicalAggregate .enumerableAggregate c
  | sort c _ _ _ => kindBy .logicalSort .enumerableSort c
  | union c _ => kindBy .logicalUnion .enumerableUnion c
  | intersect _ => .logicalIntersect
  | minus _ => .logicalMinus
  | exchange _ => .logicalExchange
  | sortExchange _ _ => .enumerableSortExchange
  | subset _ => .subset

/-- The convention of nodes with this operator. A subset can have any. -/
def convention : Operator → Convention
  | scan c _ | values c _ _ | filter c _ | project c _ | correlate c _ _ _ | aggregate c _ _
  | sort c _ _ _ | union c _ => c
  | join .logical _ _ => .none
  | join _ _ _ => .enumerable
  | sortExchange _ _ => .enumerable
  | intersect _ | minus _ | exchange _ | subset _ => .none

def isSubset : Operator → Bool
  | subset _ => true
  | _ => false

/-- The table a scan reads. -/
def table? : Operator → Option Table
  | scan _ t => some t
  | _ => none

/-- Condition of a filter. -/
def filterCondition? : Operator → Option Expr
  | filter _ e => some e
  | _ => none

/-- Expressions and names of a projection. -/
def projection? : Operator → Option (List (Expr × String))
  | project _ columns => some columns
  | _ => none

/-- Type and condition of a join of any algorithm, a semi join too. -/
def join? : Operator → Option (JoinType × Expr)
  | join _ joinType condition => some (joinType, condition)
  | _ => none

/-- Group columns and calls of an aggregate. -/
def aggregate? : Operator → Option (ColumnSet × List AggregateCall)
  | aggregate _ group calls => some (group, calls)
  | _ => none

/-- Distribution that an exchange of either kind establishes. -/
def exchangeDistribution? : Operator → Option Distribution
  | exchange d | sortExchange d _ => some d
  | _ => none

/-- Traits of a new node for which none are given. -/
def defaultTraits (o : Operator) : Traits :=
  let base := Traits.ofConvention o.convention
  match o with
  | sort _ collation _ _ => { base with collation }
  | exchange distribution => { base with distribution }
  | sortExchange distribution collation => { base with distribution, collation }
  | _ => base

/-- Number of inputs, `none` for one or more. -/
def inputCount? : Operator → Option Nat
  | scan _ _ | values _ _ _ | subset _ => some 0
  | join _ _ _ | correlate _ _ _ _ => some 2
  | union _ _ | intersect _ | minus _ => none
  | filter _ _ | project _ _ | aggregate _ _ _ | sort _ _ _ _ | exchange _
  | sortExchange _ _ => some 1

/-- Whether the operator can have that many inputs. -/
def takes (o : Operator) (count : Nat) : Bool :=
  match o.inputCount? with
  | some n => count = n
  | none => 0 < count

/-- The attributes of an operator, in the order in which plans show them. What a subset shows are
its members, which are not part of the operator. -/
def attributes : Operator → Attributes
  | scan _ t => [("table", "[" ++ ", ".intercalate t.name ++ "]")]
  | values _ rowType tuples =>
    [("type", "[" ++ rowType.text ++ "]"),
      ("tuples", "[" ++ ", ".intercalate (tuples.map Row.text) ++ "]")]
  | filter _ condition => [("condition", condition.text)]
  | project _ columns =>
    [("exprs", "[" ++
      ", ".intercalate (columns.map fun (e, name) => e.text ++ " AS " ++ name) ++ "]")]
  | join _ joinType condition => [("condition", condition.text), ("joinType", joinType.text)]
  | correlate _ correlation required joinType =>
    [("correlation", "$cor" ++ toString correlation), ("joinType", joinType.text),
      ("requiredColumns", required.text)]
  | aggregate _ group calls => ("group", group.text) :: calls.map fun c => (c.name, c.text)
  | sort _ collation offset fetch =>
    ("collation", collation.text) ::
      (Attributes.onlyIf (0 < offset) "offset" (toString offset) ++
        (fetch.map fun n => ("fetch", toString n)).toList)
  | union _ all | intersect all | minus all => [("all", if all then "true" else "false")]
  | exchange distribution => [("distribution", distribution.text)]
  | sortExchange distribution collation =>
    [("distribution", distribution.text), ("collation", collation.text)]
  | subset _ => []

end Operator

end QueryPlan
