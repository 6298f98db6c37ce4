import QueryPlan.Interchange.Expr
/-!
Row types, traits, tables and operators as JSON.
-/
namespace QueryPlan.Interchange

def readField : Json → Reading Field
  | .array [name, type, nullable] =>
    return ⟨← readText name, ← readType type, ← readBool nullable⟩
  | _ => .error .malformed

def readRowType (j : Json) : Reading RowType := return ⟨← readList readField j⟩

def readColumnSet (j : Json) : Reading ColumnSet :=
  return ColumnSet.ofList (← readList readNat j)

def readDirection (j : Json) : Reading Direction :=
  readNamed Direction.text
    [.ascending, .strictlyAscending, .descending, .strictlyDescending, .clustered] j

def readPlacement (j : Json) : Reading NullPlacement :=
  readNamed NullPlacement.text [.first, .last, .unspecified] j

/-- A field with its direction and its place of nulls, which may be left out. -/
def readFieldCollation : Json → Reading FieldCollation
  | .array [i] => return FieldCollation.ascending (← readNat i)
  | .array [i, direction] =>
    return FieldCollation.directed (← readNat i) (← readDirection direction)
  | .array [i, direction, nulls] =>
    return ⟨← readNat i, ← readDirection direction, ← readPlacement nulls⟩
  | i => return FieldCollation.ascending (← readNat i)

def readCollation (j : Json) : Reading Collation := return ⟨← readList readFieldCollation j⟩

def readDistribution : Json → Reading Distribution
  | .object [(some "hash", keys)] => return .hash (← readList readNat keys)
  | j => readNamed Distribution.text [.any, .single, .roundRobin, .broadcast] j

/-- Traits. The member `flip` exchanges the convention. -/
def readTraits (j : Json) : Reading Traits := do
  let convention ← optional j "conv" (readNamed Convention.text [.none, .enumerable])
  let collation ← optional j "coll" readCollation
  let distribution ← optional j "dist" readDistribution
  let flips ← optional j "flip" readBool
  let convention := convention.getD .none
  return ⟨if flips.getD false then convention.flip else convention, collation.getD .empty,
    distribution.getD .any⟩

def readCall : Json → Reading AggregateCall
  | .array [function, args, name] =>
    return ⟨← readNamed AggFunction.text [.count, .sum, .sum0, .min, .max] function,
      ← readList readNat args, ← readText name⟩
  | _ => .error .malformed

/-- A table. Its number of rows is that of its rows, unless it is given. -/
def readTable (j : Json) : Reading Table := do
  let name ← readNames (← member j "name")
  let rowType ← readRowType (← member j "fields")
  let keys ← readListAt j "keys" readColumnSet
  let collations ← readListAt j "collations" readCollation
  let table : Table := { name, rowType, keys, collations }
  let table := ((← optional j "rows" (readList readRow)).map table.withRows).getD table
  let rowCount ← optional j "row_count" readNumber
  return (rowCount.map fun n => { table with rowCount := n }).getD table

def readKind (j : Json) : Reading Kind := do need (Kind.ofText? (← readText j))

def readJoinType (j : Json) : Reading JoinType :=
  readNamed JoinType.text [.inner, .left, .right, .full] j

/-- The algorithm of joins of a kind. -/
def algorithmOf? : Kind → Option JoinAlgorithm
  | .logicalJoin => some .logical
  | .enumerableHashJoin => some .hash
  | .enumerableMergeJoin => some .merge
  | .enumerableNestedLoopJoin => some .nestedLoop
  | .enumerableSemiJoin => some .semi
  | _ => none

/-- The logical kinds of operators that exist in both conventions. -/
def isLogical : Kind → Bool
  | .logicalTableScan | .logicalFilter | .logicalProject | .logicalCorrelate
  | .logicalAggregate | .logicalSort | .logicalUnion | .logicalValues => true
  | _ => false

/-- An operator of a kind from its attributes. Column references are read over the input's
columns, and tables are looked up by name. -/
def readOperator (findTable : List String → Except PlanError Table) (input : Thunk RowType)
    (kind : Kind) (j : Json) : Reading Operator := do
  let convention : Convention := if isLogical kind then .none else .enumerable
  let expr := readExpr (columnsOf input)
  match kind with
  | .logicalTableScan | .enumerableTableScan =>
    let name ← readNames (← member j "table")
    return .scan convention (← ofPlan (findTable name))
  | .logicalFilter | .enumerableFilter =>
    return .filter convention (← expr (← member j "condition"))
  | .logicalProject | .enumerableProject =>
    let exprs ← readList expr (← member j "exprs")
    return Operator.projectOf convention exprs (← readListAt j "names" readText)
  | .logicalJoin | .enumerableHashJoin | .enumerableMergeJoin | .enumerableNestedLoopJoin
  | .enumerableSemiJoin =>
    let algorithm ← need (algorithmOf? kind)
    return .join algorithm (← readJoinType (← member j "join_type"))
      (← expr (← member j "condition"))
  | .logicalCorrelate | .enumerableCorrelate =>
    let joinType ← readNamed CorrelateType.text [.inner, .left, .semi, .anti]
      (← member j "join_type")
    return .correlate convention (← readNat (← member j "correlation"))
      (← readColumnSet (← member j "required")) joinType
  | .logicalAggregate | .enumerableAggregate =>
    return .aggregate convention (← readColumnSet (← member j "group"))
      (← readListAt j "calls" readCall)
  | .logicalSort | .enumerableSort =>
    let offset ← optional j "offset" readNat
    return .sort convention (← readCollation (← member j "collation")) (offset.getD 0)
      (← optional j "fetch" readNat)
  | .logicalUnion | .enumerableUnion =>
    return .union convention (← readBool (← member j "all"))
  | .logicalIntersect => return .intersect (← readBool (← member j "all"))
  | .logicalMinus => return .minus (← readBool (← member j "all"))
  | .logicalValues | .enumerableValues =>
    return .values convention (← readRowType (← member j "type"))
      (← readList readRow (← member j "tuples"))
  | .logicalExchange => return .exchange (← readDistribution (← member j "distribution"))
  | .enumerableSortExchange =>
    return .sortExchange (← readDistribution (← member j "distribution"))
      (← readCollation (← member j "collation"))
  | _ => throw .malformed

end QueryPlan.Interchange
