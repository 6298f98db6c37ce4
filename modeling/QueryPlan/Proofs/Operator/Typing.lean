import QueryPlan.Proofs.Expr.Typing
/-!
# What an operator sees of its inputs are their column types

Names and nullability of input columns have no part in an operator's check, and none in the types of its
own columns. So inputs may be exchanged for others with the same column types.
-/
namespace QueryPlan

namespace RowType

/-- The types of the columns. -/
def types (t : RowType) : List DataType := t.fields.map Field.dataType

variable {a b a' b' : RowType} {ts ts' : List RowType}

theorem length_types (t : RowType) : t.types.length = t.arity := by
  rw [types, List.length_map, arity]

theorem isCompatible_iff : a.isCompatible b = true ↔ a.types = b.types := beq_iff_eq

theorem arity_congr (h : a.types = b.types) : a.arity = b.arity := by
  rw [← length_types, ← length_types, h]

theorem types_join (a b : RowType) (padsLeft padsRight : Bool) :
    (a.join b padsLeft padsRight).types = a.types ++ b.types := by
  rw [types, join, List.map_append, List.map_map, List.map_map]
  rfl

/-- The types of widened columns, if each position has a common type. -/
def widenTypes : List DataType → List DataType → Option (List DataType)
  | [], [] => some []
  | t :: ts, u :: us => do
    let w ← t.leastRestrictive u
    let ws ← widenTypes ts us
    some (w :: ws)
  | _, _ => none

theorem widenFields_types (fs gs : List Field) :
    (widenFields fs gs).map (·.map Field.dataType) =
      widenTypes (fs.map Field.dataType) (gs.map Field.dataType) := by
  induction fs generalizing gs with
  | nil => cases gs <;> rfl
  | cons f fs ih =>
    cases gs with
    | nil => rfl
    | cons g gs =>
      rw [widenFields, List.map_cons, List.map_cons, widenTypes, ← ih, widenField]
      cases f.dataType.leastRestrictive g.dataType with
      | none => rfl
      | some w => cases widenFields fs gs <;> rfl

theorem widen_types (a b : RowType) : (widen a b).map types = widenTypes a.types b.types := by
  rw [types, types, ← widenFields_types, widen, Option.map_map]
  rfl

/-- The types of a row type that holds the rows of every one of the given types. -/
def leastRestrictiveTypes : List (List DataType) → Option (List DataType)
  | [] => none
  | t :: ts => ts.foldlM widenTypes t

theorem leastRestrictive_types (ts : List RowType) :
    (leastRestrictive ts).map types = leastRestrictiveTypes (ts.map types) := by
  cases ts with
  | nil => rfl
  | cons t ts =>
    rw [leastRestrictive, List.map_cons, leastRestrictiveTypes]
    induction ts generalizing t with
    | nil => rfl
    | cons u ts ih =>
      rw [List.foldlM_cons, List.map_cons, List.foldlM_cons, ← widen_types]
      cases widen t u with
      | none => rfl
      | some w => exact ih w

theorem leastRestrictive_congr (h : ts.map types = ts'.map types) :
    (leastRestrictive ts).map types = (leastRestrictive ts').map types := by
  rw [leastRestrictive_types, leastRestrictive_types, h]

theorem getElem?_types (t : RowType) (i : Nat) : t.types[i]? = t.fields[i]?.map Field.dataType :=
  List.getElem?_map

/-- Missing inputs have no columns. -/
theorem types_getD (h : ts.map types = ts'.map types) (i : Nat) :
    (ts[i]?.getD default).types = (ts'[i]?.getD default).types := by
  have hat := congrArg (·[i]?) h
  simp only [List.getElem?_map] at hat
  cases hi : ts[i]? with
  | none =>
    rw [hi] at hat
    rw [Option.map_eq_none_iff.mp hat.symm]
  | some t =>
    rw [hi] at hat
    obtain ⟨t', ht', heq⟩ := Option.map_eq_some_iff.mp hat.symm
    rw [ht']
    exact heq.symm

end RowType

namespace AggregateCall

theorem dataType_field {a b : RowType} (h : a.types = b.types) (call : AggregateCall) :
    (call.field a).dataType = (call.field b).dataType := by
  have hat : ∀ i, a.fields[i]?.map Field.dataType = b.fields[i]?.map Field.dataType := fun i => by
    rw [← RowType.getElem?_types, ← RowType.getElem?_types, h]
  have hargument : (call.args.head?.bind fun i => a.fields[i]?).map Field.dataType =
      (call.args.head?.bind fun i => b.fields[i]?).map Field.dataType := by
    cases call.args.head? with
    | none => rfl
    | some i => exact hat i
  unfold field
  split
  · rfl
  · dsimp only
    rw [hargument]

end AggregateCall

namespace Operator

open RowType

variable {ins ins' : List RowType}

theorem types_filterMap {a b : RowType} (h : a.types = b.types) (group : List Nat) :
    (group.filterMap (a.fields[·]?)).map Field.dataType =
      (group.filterMap (b.fields[·]?)).map Field.dataType := by
  have hat : ∀ i, a.fields[i]?.map Field.dataType = b.fields[i]?.map Field.dataType := fun i => by
    rw [← getElem?_types, ← getElem?_types, h]
  rw [List.map_filterMap, List.map_filterMap]
  exact congrArg (List.filterMap · group) (funext hat)

/-- The column types of an operator depend on the column types of its inputs only. -/
theorem types_congr (o : Operator) (h : ins.map types = ins'.map types) :
    (o.rowType ins).types = (o.rowType ins').types := by
  have hfirst := types_getD h 0
  have hsecond := types_getD h 1
  cases o with
  | scan _ _ | values _ _ _ | subset _ => rfl
  | filter _ _ | sort _ _ _ _ | exchange _ | sortExchange _ _ => exact hfirst
  | project _ columns =>
    simp only [rowType, types, List.map_map]
    rfl
  | join algorithm joinType condition =>
    cases algorithm with
    | semi => exact hfirst
    | _ => simp only [rowType, types_join, hfirst, hsecond]
  | correlate _ _ _ joinType =>
    simp only [rowType]
    split
    · rw [types_join, types_join, hfirst, hsecond]
    · exact hfirst
  | aggregate _ group calls =>
    simp only [rowType, types, List.map_append, List.map_map]
    rw [types_filterMap hfirst group.toList]
    exact congrArg _ (List.map_congr_left fun call _ => call.dataType_field hfirst)
  | union _ _ | intersect _ | minus _ =>
    have hleast := leastRestrictive_congr h
    simp only [rowType]
    cases hl : leastRestrictive ins with
    | none =>
      rw [hl] at hleast
      rw [Option.map_eq_none_iff.mp hleast.symm]
      exact hfirst
    | some t =>
      rw [hl] at hleast
      obtain ⟨t', ht', heq⟩ := Option.map_eq_some_iff.mp hleast.symm
      rw [ht']
      exact heq.symm

/-- Whether an operator passes its check depends on the column types of its inputs only. -/
theorem check_congr (o : Operator) (h : ins.map types = ins'.map types) :
    o.check ins = o.check ins' := by
  have hfirst := arity_congr (types_getD h 0)
  have hsecond := arity_congr (types_getD h 1)
  have hlength : ins.length = ins'.length := by
    rw [← List.length_map types, h, List.length_map]
  have hnone : (leastRestrictive ins).isNone = (leastRestrictive ins').isNone := by
    rw [← Option.isNone_map (f := types), leastRestrictive_congr h, Option.isNone_map]
  unfold check
  dsimp only
  rw [hfirst, hsecond, hlength, hnone]

/-- Whether the expressions of an operator are typed over inputs with the given column types, and its
condition is a condition. -/
def isTyped (o : Operator) (inputs : List (List DataType)) : Bool :=
  let first := inputs[0]?.getD []
  let second := inputs[1]?.getD []
  match o with
  | filter _ condition => condition.isTypedCondition first
  | project _ columns => columns.all fun (e, _) => e.isTyped first
  | join _ _ condition => condition.isTypedCondition (first ++ second)
  | _ => true

end Operator

end QueryPlan
