import QueryPlan.Operator.Basic
/-!
Row types of operators over the row types of their inputs, and the check of an operator's attributes
against its inputs.

The row type is defined for every operator and every list of inputs, also where the check fails.
-/
namespace QueryPlan

namespace Expr

mutual

/-- Whether an expression over an input can be null: a call if an operand can, but for the tests for
null. -/
def isNullable (input : RowType) : Expr → Bool
  | column i _ => (input.fields[i]?.map Field.nullable).getD false
  | literal v => v.isNull
  | apply op es _ =>
    match op with
    | .isNull | .isNotNull => false
    | _ => anyNullable input es
  | tableColumn _ _ _ => true

/-- Whether some expression of a list can be null. -/
def anyNullable (input : RowType) : List Expr → Bool
  | [] => false
  | e :: es => isNullable input e || anyNullable input es

end

/-- The first column, in ascending order, that an expression reads beyond an arity. -/
def unknownColumn? (e : Expr) (arity : Nat) : Option Nat := e.columns.toList.find? (arity ≤ ·)

/-- Checks that an expression reads only columns below an arity. -/
def checkColumns (what : String) (e : Expr) (arity : Nat) : Except NodeFault Unit :=
  match e.unknownColumn? arity with
  | some i => .error (.unknownColumn what e i arity)
  | none => .ok ()

end Expr

namespace Operator

/-- The output column of a projected expression. -/
def projectedField (input : RowType) (e : Expr) (name : String) : Field :=
  ⟨name, e.dataType, (e.unknownColumn? input.arity).isNone && e.isNullable input⟩

/-- Row type of an operator over inputs with the given row types. Missing inputs count as inputs
without columns. -/
def rowType (o : Operator) (inputs : List RowType) : RowType :=
  let first := inputs[0]?.getD default
  let second := inputs[1]?.getD default
  match o with
  | scan _ t => t.rowType
  | values _ rowType _ => rowType
  | subset rowType => rowType
  | filter _ _ | sort _ _ _ _ | exchange _ | sortExchange _ _ => first
  | project _ columns => ⟨columns.map fun (e, name) => projectedField first e name⟩
  | join .semi _ _ => first
  | join _ joinType _ => first.join second joinType.padsLeft joinType.padsRight
  | correlate _ _ _ joinType =>
    if joinType.projectsRight then first.join second false (joinType = .left) else first
  | aggregate _ group calls =>
    ⟨group.toList.filterMap (first.fields[·]?) ++ calls.map (·.field first)⟩
  | union _ _ | intersect _ | minus _ => (RowType.leastRestrictive inputs).getD first

/-- Row type of an operator over inputs whose row types need not be derived yet. -/
def deriveType (o : Operator) (inputs : List (Thunk RowType)) : Thunk RowType :=
  Thunk.mk fun _ => o.rowType (inputs.map Thunk.get)

@[simp] theorem deriveType_get (o : Operator) (inputs : List (Thunk RowType)) :
    (o.deriveType inputs).get = o.rowType (inputs.map Thunk.get) := rfl

/-- Checks one aggregate call: its columns exist, and all but counts take one argument. -/
def checkCall (arity : Nat) (call : AggregateCall) : Except NodeFault Unit :=
  if call.args.any (arity ≤ ·) then .error (.callColumn call)
  else if call.function ≠ .count ∧ call.args.length ≠ 1 then .error (.callArity call)
  else .ok ()

/-- Fails with the first of the ordinals that is not below the arity. -/
def checkOrdinals (fault : Nat → NodeFault) (arity : Nat) (ordinals : List Nat) :
    Except NodeFault Unit :=
  match ordinals.find? (arity ≤ ·) with
  | some i => .error (fault i)
  | none => .ok ()

/-- Checks an operator's attributes against the row types of its inputs and reports the first
fault. -/
def check (o : Operator) (inputs : List RowType) : Except NodeFault Unit :=
  let first := inputs[0]?.getD default
  let second := inputs[1]?.getD default
  match o with
  | scan _ _ | subset _ => .ok ()
  | values _ rowType tuples =>
    match tuples.find? (·.length ≠ rowType.arity) with
    | some t => .error (.tupleWidth t.length rowType.arity)
    | none => .ok ()
  | filter _ condition =>
    match condition.dataType with
    | .boolean | .null => condition.checkColumns "condition" first.arity
    | _ => .error (.conditionType condition)
  | project _ columns => columns.forM fun (e, _) => e.checkColumns "expression" first.arity
  | join _ _ condition => condition.checkColumns "condition" (first.arity + second.arity)
  | correlate _ _ required _ => checkOrdinals .requiredColumn first.arity required.toList
  | aggregate _ group calls => do
    checkOrdinals .groupColumn first.arity group.toList
    calls.forM (checkCall first.arity)
  | sort _ collation _ _ => checkOrdinals .sortKey first.arity collation.keys
  | exchange distribution => checkOrdinals .distributionKey first.arity distribution.keys
  | sortExchange distribution collation => do
    checkOrdinals .distributionKey first.arity distribution.keys
    checkOrdinals .distributionKey first.arity collation.keys
  | union _ _ | intersect _ | minus _ =>
    if inputs.length < 2 then .error (.tooFewInputs inputs.length)
    else if (RowType.leastRestrictive inputs).isNone then .error .incompatibleInputs
    else .ok ()

end Operator

end QueryPlan
