import QueryPlan.Proofs.Metadata.Containment
import QueryPlan.Proofs.Execution.Reading
import QueryPlan.Proofs.Expr.Parts
import QueryPlan.Proofs.Expr.Typing
import QueryPlan.Proofs.Rule.Adjacent
/-!
# Numbers of distinct rows are found

A question for a number of distinct rows carries columns and a predicate, and each method turns them
into columns and predicates over what the node is made of. If the node passes its check and the question
is about fields of the node, then the questions that its method asks are about fields of the nodes that
they go to, and finding the number does not break off.
-/
namespace QueryPlan

/-! ## Predicates over so many columns -/

namespace Expr

variable {n : Nat} {p : Option Expr} {ps : List Expr} {available : ColumnSet}

/-- The predicate, if there is one, reads only the first so many columns. -/
def ReadsBelow (n : Nat) (p : Option Expr) : Prop := ∀ e ∈ p, ∀ i ∈ e.columnList, i < n

theorem columnList_conjunction? {e : Expr} (h : conjunction? ps = some e) :
    ∀ i ∈ e.columnList, ∃ k ∈ ps, i ∈ k.columnList := by
  have hparts : ∀ part ∈ conjunctsOf ps, ∀ i ∈ part.columnList, ∃ k ∈ ps, i ∈ k.columnList := by
    intro part hpart i hi
    rw [conjunctsOf_eq] at hpart
    obtain ⟨k, hk, hpart⟩ := List.mem_flatMap.mp hpart
    exact ⟨k, hk, columnList_of_mem_conjuncts hpart i hi⟩
  intro i hi
  unfold conjunction? at h
  dsimp only at h
  split at h
  · cases h
    cases hi
  · generalize conjunctsOf ps = parts at h hparts
    match parts with
    | [] => cases h
    | [part] =>
      cases h
      exact hparts e List.mem_cons_self i hi
    | part :: part' :: rest =>
      cases h
      obtain ⟨k, hk, hi⟩ := mem_columnList_apply.mp hi
      exact hparts k hk i hi

theorem readsBelow_conjunction? (h : ∀ k ∈ ps, ∀ i ∈ k.columnList, i < n) :
    ReadsBelow n (conjunction? ps) := by
  intro e he i hi
  obtain ⟨k, hk, hi⟩ := columnList_conjunction? he i hi
  exact h k hk i hi

/-- What is split off a predicate reads the given columns only. -/
theorem columns_of_mem_splitBy {k : Expr} (hk : k ∈ (splitBy available p).1) :
    ∀ i ∈ k.columnList, i ∈ available.toList := by
  cases p with
  | none => cases hk
  | some e =>
    simp only [splitBy, List.partition_eq_filter_filter] at hk
    have hincludes := ColumnSet.includes_iff.mp (List.mem_filter.mp hk).2
    exact fun i hi => hincludes i (mem_columns.mpr hi)

theorem readsBelow_splitBy (n : Nat) (p : Option Expr) :
    ReadsBelow n (conjunction? (splitBy (ColumnSet.range 0 n) p).1) :=
  readsBelow_conjunction? fun _ hk i hi =>
    (ColumnSet.mem_toList_range.mp (columns_of_mem_splitBy hk i hi)).2

theorem readsBelow_and {condition : Expr} (hp : ReadsBelow n p)
    (hcondition : ∀ i ∈ condition.columnList, i < n) :
    ReadsBelow n (some ((p.map fun e => call .and [e, condition]).getD condition)) := by
  intro combined hcombined i hi
  cases hcombined
  cases p with
  | none => exact hcondition i hi
  | some e =>
    obtain ⟨k, hk, hread⟩ := mem_columnList_apply.mp hi
    rcases List.mem_pair.mp hk with rfl | rfl
    · exact hp k rfl i hread
    · exact hcondition i hread

/-- A predicate whose columns are replaced by expressions over so many columns. -/
theorem readsBelow_mapColumns? {f : Nat → DataType → Option Expr} {e e' : Expr}
    (h : e.mapColumns? f = some e')
    (hf : ∀ i ∈ e.columnList, ∀ t k, f i t = some k → ∀ j ∈ k.columnList, j < n) :
    ReadsBelow n (some e') := by
  intro _ he j hj
  cases he
  obtain ⟨i, hi, t, k, hk, hj⟩ := mem_columnList_mapColumns? h hj
  exact hf i hi t k hk j hj

/-! ## Calls with their operands -/

mutual

/-- Whether every call has as many operands as its operator takes. -/
def hasOperands : Expr → Bool
  | apply op es _ => op.operandCount?.all (es.length = ·) && haveOperands es
  | _ => true

/-- Whether every call in a list of expressions has as many operands as its operator takes. -/
def haveOperands : List Expr → Bool
  | [] => true
  | e :: es => hasOperands e && haveOperands es

end

theorem haveOperands_iff {es : List Expr} :
    haveOperands es = true ↔ ∀ e ∈ es, e.hasOperands = true := by
  induction es with
  | nil => simp [haveOperands]
  | cons e es ih => rw [haveOperands, Bool.and_eq_true, ih, List.forall_mem_cons]

theorem hasOperands_apply {op : Op} {es : List Expr} {t : DataType} :
    (apply op es t).hasOperands = true ↔
      (∀ count, op.operandCount? = some count → es.length = count) ∧
        ∀ e ∈ es, e.hasOperands = true := by
  rw [hasOperands, Bool.and_eq_true, haveOperands_iff, Option.all_eq_true_iff_get]
  cases op.operandCount? <;> simp

theorem haveMovement_of_forall {es : List Expr} {count : Nat} (hcount : count ≤ es.length)
    (h : ∀ e ∈ es, e.hasMovement = true) : haveMovement count es = true := by
  induction es generalizing count with
  | nil =>
    obtain rfl := Nat.le_zero.mp hcount
    rfl
  | cons e es ih =>
    rw [List.forall_mem_cons] at h
    cases count with
    | zero => rfl
    | succ count => rw [haveMovement, h.1, ih (Nat.le_of_succ_le_succ hcount) h.2, Bool.and_self]

/-- A call with its operands has all that its movement is read off. -/
theorem hasMovement_of_hasOperands {e : Expr} (h : e.hasOperands = true) : e.hasMovement = true := by
  induction e using induct with
  | apply op es t ih =>
    obtain ⟨hcount, hoperands⟩ := hasOperands_apply.mp h
    refine haveMovement_of_forall ?_ fun e he => ih e he (hoperands e he)
    cases hop : op.operandCount? with
    | none => cases op <;> first | exact Nat.zero_le _ | cases hop
    | some count =>
      rw [hcount count hop]
      cases op <;> cases hop <;> decide
  | column | literal | tableColumn => rfl

end Expr

/-! ## Fields of a node -/

namespace Cluster

variable {c : Cluster} {id j : NodeId}

/-- The columns, and those that the predicate reads, are fields of the node. -/
structure HasFields (c : Cluster) (id : NodeId) (columns : ColumnSet) (p : Option Expr) : Prop where
  columns : ∀ i ∈ columns.toList, i < c.arity id
  predicate : Expr.ReadsBelow (c.arity id) p

theorem hasFields_none {columns : List Nat} (h : ∀ i ∈ columns, i < c.arity id) :
    c.HasFields id (ColumnSet.ofList columns) none :=
  ⟨fun i hi => h i (ColumnSet.mem_toList_ofList.mp hi), nofun⟩

theorem HasFields.congr {columns : ColumnSet} {p : Option Expr} (h : c.HasFields id columns p)
    (harity : c.arity id = c.arity j) : c.HasFields j columns p :=
  ⟨harity ▸ h.columns, harity ▸ h.predicate⟩

/-- Operators that pass on the rows of their first input pass on its columns. -/
theorem arity_eq_of_input? (hid : id < c.size) (hj : c.input? id 0 = some j)
    (h : ∀ types, (c.operator id).rowType types = types[0]?.getD default) : c.arity id = c.arity j := by
  rw [arity_eq hid, h, rowType_getElem?_inputs hj, arity]

theorem arity_eq_of_mem_members (h : j ∈ (c.node id).members) : c.arity id = c.arity j :=
  RowType.arity_eq_of_isCompatible (isCompatible_of_mem_members h)

/-- The inputs of a union that passes its check have as many columns as it has. -/
theorem arity_eq_of_union {v : Convention} {all : Bool} (hid : id < c.size)
    (hop : c.operator id = .union v all) (hcheck : c.check id = .ok ()) (hj : j ∈ c.inputs id) :
    c.arity id = c.arity j := by
  have hchecked := Outcome.mapError_eq_ok.mp hcheck
  rw [hop, Operator.check] at hchecked
  rw [arity_eq hid, hop, Operator.rowType]
  split at hchecked
  · cases hchecked
  · cases hcommon : RowType.leastRestrictive ((c.inputs id).map c.rowType) with
    | none =>
      rw [hcommon] at hchecked
      cases hchecked
    | some t => exact (RowType.arity_leastRestrictive hcommon _ (List.mem_map_of_mem hj)).symm

/-- The columns that a checked aggregate reads are there. -/
theorem IsNode.lt_of_aggregate {v : Convention} {group : ColumnSet} {calls : List AggregateCall}
    (h : c.IsNode id (.aggregate v group calls) [j]) (hcheck : c.check id = .ok ()) :
    (∀ g ∈ group.toList, g < c.arity j) ∧ ∀ call ∈ calls, ∀ a ∈ call.args, a < c.arity j := by
  have hchecked := Outcome.mapError_eq_ok.mp hcheck
  rw [h.operator_eq, h.inputs_eq] at hchecked
  simp only [Operator.check, Outcome.bind_eq_ok] at hchecked
  obtain ⟨u, hgroup, hcalls⟩ := hchecked
  exact ⟨Operator.lt_of_checkOrdinals hgroup, fun call hcall =>
    Execution.lt_of_checkCall (Outcome.forM_eq_ok.mp hcalls call hcall)⟩

end Cluster

namespace Estimate

variable {n : Nat}

/-- Each side of a join is asked for a predicate over its own columns. -/
theorem readsBelow_splitAtJoin (leftCount rightCount : Nat) (p : Option Expr) :
    Expr.ReadsBelow leftCount (splitAtJoin leftCount rightCount p).1 ∧
      Expr.ReadsBelow rightCount (splitAtJoin leftCount rightCount p).2.1 := by
  refine ⟨Expr.readsBelow_splitBy _ _, fun e he i hi => ?_⟩
  obtain ⟨k, hk, rfl⟩ := Option.map_eq_some_iff.mp he
  rw [Expr.shift, Expr.columnList_mapColumns] at hi
  obtain ⟨j, hj, rfl⟩ := List.mem_map.mp hi
  obtain ⟨part, hpart, hj⟩ := Expr.columnList_conjunction? hk j hj
  have hrange := ColumnSet.mem_toList_range.mp (Expr.columns_of_mem_splitBy hpart j hj)
  have hback : ((j : Int) + -(leftCount : Int)) = ((j - leftCount : Nat) : Int) := by omega
  rw [shiftOrdinal, hback, ← Int.natCast_emod, Int.toNat_natCast]
  exact Nat.lt_of_le_of_lt (Nat.mod_le _ _) (by omega)

theorem lt_of_mem_aggregatedColumns {group columns : ColumnSet} {calls : List AggregateCall}
    (hgroup : ∀ g ∈ group.toList, g < n) (hcalls : ∀ call ∈ calls, ∀ a ∈ call.args, a < n) :
    ∀ i ∈ (aggregatedColumns group calls columns).toList, i < n := by
  intro i hi
  obtain ⟨column, -, hi⟩ := List.mem_flatMap.mp (ColumnSet.mem_toList_ofList.mp hi)
  split at hi
  · exact hgroup i (List.mem_of_getElem? (Option.mem_toList.mp hi))
  · cases hcall : calls[column - group.size]? with
    | none =>
      rw [hcall] at hi
      cases hi
    | some call =>
      rw [hcall] at hi
      exact hcalls call (List.mem_of_getElem? hcall) i hi

theorem readsBelow_renumber {group : ColumnSet} {p : Option Expr}
    (hgroup : ∀ g ∈ group.toList, g < n) : Expr.ReadsBelow n (p.bind (·.renumber? group.nth?)) := by
  intro e' he'
  obtain ⟨e, -, hrenumbered⟩ := Option.bind_eq_some_iff.mp he'
  refine Expr.readsBelow_mapColumns? hrenumbered (fun i _ t k hk j hj => ?_) e' rfl
  obtain ⟨g, hg, rfl⟩ := Option.map_eq_some_iff.mp hk
  rw [List.mem_singleton.mp hj]
  exact hgroup g (List.mem_of_getElem? hg)

end Estimate

/-! ## Methods that succeed -/

namespace Operator

/-- The method that numbers of distinct rows of an operator's nodes are found by. -/
def distinctMethod : Operator → DistinctMethod
  | filter _ _ => .filter
  | sort _ _ _ _ | exchange _ | sortExchange _ _ => .firstInput
  | join .semi _ _ => .semiJoin
  | join _ _ _ => .join
  | aggregate _ _ _ => .aggregate
  | project _ _ => .project
  | union _ _ => .union
  | values _ _ _ => .values
  | subset _ => .subset
  | scan _ _ | correlate _ _ _ _ | intersect _ | minus _ => .unknown

theorem distinct_methodFor_kind (o : Operator) :
    Methods.builtin.distinct.methodFor o.kind = o.distinctMethod := by
  cases o with
  | join algorithm _ _ => cases algorithm <;> rfl
  | scan v _ | values v _ _ | filter v _ | project v _ | correlate v _ _ _ | aggregate v _ _
  | sort v _ _ _ | union v _ => cases v <;> rfl
  | _ => rfl

end Operator

section

open Querying

variable {c : Cluster} {ask : Asking} {id : NodeId} {I : Memory → Prop} {blocked : Prop}
  {columns : ColumnSet} {p : Option Expr}

/-- A predicate that can be changed is asked for as it is then. -/
theorem gives_changed {β : Type} {change : Expr → Option Expr} {f : Option Expr → Querying β}
    (hchange : ∀ e ∈ p, ∃ e', change e = some e')
    (hf : ∀ q, (∀ e' ∈ q, ∃ e ∈ p, change e = some e') → Gives I (Succeeds blocked) (f q)) :
    Gives I (Succeeds blocked) ((p.mapM fun e => ofOption (change e)) >>= f) := by
  cases p with
  | none => exact hf none nofun
  | some e =>
    obtain ⟨e', he'⟩ := hchange e rfl
    simp only [Option.mapM_some, map_eq_pure_bind, bind_assoc, pure_bind, he']
    refine hf (some e') fun _ h => ?_
    cases h
    exact ⟨e, rfl, he'⟩

namespace Estimate

variable (hrows : Gives I (Succeeds blocked) (ask.rowCount id))
  (hinputs : ∀ j ∈ c.inputs id, ∀ columns p, c.HasFields j columns p →
    Gives I (Succeeds blocked) (ask.distinct j columns p))

theorem gives_callCardinality {op : Op} {rows : Float} {operands : List (Querying (Option Float))}
    (hcount : ∀ count, op.operandCount? = some count → operands.length = count)
    (hoperands : ∀ x ∈ operands, Gives I (Succeeds blocked) x) :
    Gives I (Succeeds blocked) (callCardinality op rows operands) := by
  have hat : ∀ (i : Nat) {α : Type} {f : Querying (Option Float) → Querying α},
      i < operands.length → (∀ x ∈ operands, Gives I (Succeeds blocked) (f x)) →
      Gives I (Succeeds blocked) (ofOption operands[i]? >>= f) := by
    intro i α f hi hf
    rw [List.getElem?_eq_getElem hi]
    exact hf _ (List.getElem_mem hi)
  unfold callCardinality
  split
  · exact hat 0 (by rw [hcount 1 rfl]; decide) hoperands
  iterate 4
    · refine hat 0 (by rw [hcount 2 rfl]; decide) fun x hx => ?_
      refine (hoperands x hx).bind_succeeds fun left? => ?_
      refine hat 1 (by rw [hcount 2 rfl]; decide) fun y hy => ?_
      refine (hoperands y hy).bind_succeeds fun right? => ?_
      split
      · split
        · exact gives_pure trivial
        · exact gives_pure trivial
      · exact gives_pure trivial
  · split
    · exact hoperands _ List.mem_cons_self
    · exact gives_pure trivial

include hrows hinputs

theorem gives_cardinality {e : Expr} (hcount : (c.operator id).inputCount? = some 1)
    (hoperands : e.hasOperands = true)
    (hcolumns : ∀ j ∈ c.inputs id, ∀ i ∈ e.columnList, i < c.arity j) :
    Gives I (Succeeds blocked) (cardinality c ask id e) := by
  induction e using Expr.induct with
  | column i t =>
    rw [cardinality]
    refine gives_input hcount Nat.one_pos fun j hj => hrows.bind_succeeds fun _ => ?_
    exact hinputs j hj _ _ (Cluster.hasFields_none (hcolumns j hj))
  | literal v =>
    rw [cardinality]
    exact gives_input hcount Nat.one_pos fun j hj => hrows.bind_succeeds fun _ => gives_pure trivial
  | apply op es t ih =>
    obtain ⟨hlength, heach⟩ := Expr.hasOperands_apply.mp hoperands
    rw [cardinality, DistinctMethod.cardinalities_eq]
    refine gives_input hcount Nat.one_pos fun j hj => hrows.bind_succeeds fun rows => ?_
    refine Gives.bind_succeeds ?_ fun _ => gives_pure trivial
    refine gives_callCardinality (fun n hn => by rw [List.length_map, hlength n hn]) fun x hx => ?_
    obtain ⟨e, he, rfl⟩ := List.mem_map.mp hx
    exact ih e he (heach e he) fun k hk i hi =>
      hcolumns k hk i (Expr.mem_columnList_apply.mpr ⟨e, he, hi⟩)
  | tableColumn r i t =>
    rw [cardinality]
    exact gives_input hcount Nat.one_pos fun j hj => hrows.bind_succeeds fun _ => gives_pure trivial

end Estimate

namespace DistinctMethod

theorem gives_unlessTrivial {x : Querying (Option Float)} (h : Gives I (Succeeds blocked) x) :
    Gives I (Succeeds blocked) (unlessTrivial columns p x) := by
  unfold unlessTrivial
  split
  · exact gives_pure trivial
  · exact h

theorem gives_distinctLeast {members : List NodeId} (least : Option Float)
    (h : ∀ j ∈ members, Gives I (Succeeds True) (ask.distinct j columns p)) :
    Gives I (Succeeds blocked) (leastOf ask columns p least members) := by
  induction members generalizing least with
  | nil => exact gives_pure trivial
  | cons member members ih =>
    rw [List.forall_mem_cons] at h
    refine (h.1.skipCyclic fun r hr => hr.skipped).bind_succeeds fun number?? => ?_
    rcases number?? with _ | _ | number
    · exact ih _ h.2
    · exact ih _ h.2
    · exact ih _ h.2

section

variable (hrows : Gives I (Succeeds blocked) (ask.rowCount id))
  (hinputs : ∀ j ∈ c.inputs id, ∀ columns p, c.HasFields j columns p →
    Gives I (Succeeds blocked) (ask.distinct j columns p))

include hrows in
theorem gives_ofKey : Gives I (Succeeds blocked) (ofKey c ask id columns p) := by
  unfold ofKey
  split
  · exact hrows.bind_succeeds fun rows => gives_pure trivial
  · exact gives_pure trivial

include hinputs in
theorem gives_ofFilter {v : Convention} {condition : Expr} {input : NodeId}
    (hnode : c.IsNode id (.filter v condition) [input]) (hcheck : c.check id = .ok ())
    (hkey : c.HasFields id columns p) :
    Gives I (Succeeds blocked) (ofFilter c ask id columns p) := by
  have harity := hnode.arity_filter
  unfold ofFilter
  rw [hnode.operator_eq]
  refine gives_input (by rw [hnode.operator_eq]; rfl) Nat.one_pos fun j hj => ?_
  obtain rfl := List.mem_singleton.mp (hnode.inputs_eq ▸ hj)
  refine hinputs j hj _ _ ⟨(hkey.congr harity).columns, ?_⟩
  exact Expr.readsBelow_and (hkey.congr harity).predicate (hnode.lt_of_filter hcheck)

include hrows hinputs in
theorem gives_ofJoin (hcount : (c.operator id).inputCount? = some 2) (hid : id < c.size)
    (harity : ∀ left right, c.inputs id = [left, right] → c.arity id = c.arity left + c.arity right)
    (hkey : c.HasFields id columns p) : Gives I (Succeeds blocked) (ofJoin c ask id columns p) := by
  obtain ⟨left, right, hnode⟩ := Cluster.exists_isNode_two hid rfl hcount
  have hinput : ∀ {i : Nat} {j : NodeId}, [left, right][i]? = some j →
      input c id i = (pure j : Querying NodeId) := by
    intro i j hj
    rw [input, Cluster.input?, hnode.inputs_eq, hj]
    rfl
  have hwidth := harity left right hnode.inputs_eq
  obtain ⟨hleft, hright⟩ := Estimate.readsBelow_splitAtJoin (c.arity left) (c.arity right) p
  unfold ofJoin
  rw [hinput (i := 0) rfl, hinput (i := 1) rfl, pure_bind, pure_bind]
  dsimp only
  generalize Estimate.splitAtJoin (c.arity left) (c.arity right) p = parts at *
  obtain ⟨onLeft, onRight, onBoth⟩ := parts
  refine (hinputs left (by rw [hnode.inputs_eq]; simp) _ _ ⟨fun i hi => ?_, hleft⟩).bind_succeeds
    fun lefts => ?_
  · have hmem := (List.mem_filter.mp (ColumnSet.mem_toList_ofList.mp hi)).2
    simpa using hmem
  refine (hinputs right (by rw [hnode.inputs_eq]; simp) _ _ ⟨fun i hi => ?_, hright⟩).bind_succeeds
    fun rights => ?_
  · obtain ⟨k, hk, rfl⟩ := List.mem_map.mp (ColumnSet.mem_toList_ofList.mp hi)
    obtain ⟨hk, hle⟩ := List.mem_filter.mp hk
    have hlt := hkey.columns k hk
    have hle := of_decide_eq_true hle
    omega
  split
  · exact hrows.bind_succeeds fun rows => gives_pure trivial
  · exact gives_pure trivial

include hinputs in
theorem gives_ofAggregate {v : Convention} {group : ColumnSet} {calls : List AggregateCall}
    {input : NodeId} (hnode : c.IsNode id (.aggregate v group calls) [input])
    (hcheck : c.check id = .ok ()) : Gives I (Succeeds blocked) (ofAggregate c ask id columns p) := by
  obtain ⟨hgroup, hcalls⟩ := hnode.lt_of_aggregate hcheck
  unfold ofAggregate
  rw [hnode.operator_eq]
  refine gives_input (by rw [hnode.operator_eq]; rfl) Nat.one_pos fun j hj => ?_
  obtain rfl := List.mem_singleton.mp (hnode.inputs_eq ▸ hj)
  refine (hinputs j hj _ _ ⟨?_, ?_⟩).bind_succeeds fun number => gives_pure trivial
  · exact Estimate.lt_of_mem_aggregatedColumns hgroup hcalls
  · exact Estimate.readsBelow_renumber hgroup

include hrows hinputs in
theorem gives_timesComputed {exprs : List Expr} {computed : List Nat} (number : Float)
    (hcount : (c.operator id).inputCount? = some 1)
    (hoperands : ∀ e ∈ exprs, e.hasOperands = true)
    (hexprs : ∀ j ∈ c.inputs id, ∀ e ∈ exprs, ∀ i ∈ e.columnList, i < c.arity j)
    (hcomputed : ∀ i ∈ computed, i < exprs.length) :
    Gives I (Succeeds blocked) (timesComputed c ask id exprs number computed) := by
  induction computed generalizing number with
  | nil => exact gives_pure trivial
  | cons column computed ih =>
    rw [List.forall_mem_cons] at hcomputed
    have hmem := List.getElem_mem hcomputed.1
    unfold timesComputed
    rw [List.getElem?_eq_getElem hcomputed.1]
    refine (Estimate.gives_cardinality hrows hinputs hcount (hoperands _ hmem) fun j hj =>
      hexprs j hj _ hmem).bind_succeeds fun factor? => ?_
    cases factor? with
    | some factor => exact ih _ hcomputed.2
    | none => exact gives_pure trivial

include hrows hinputs in
theorem gives_ofProjection {v : Convention} {projected : List (Expr × String)} {input : NodeId}
    (hnode : c.IsNode id (.project v projected) [input]) (hcheck : c.check id = .ok ())
    (hoperands : ∀ e ∈ projected.map Prod.fst, e.hasOperands = true)
    (hkey : c.HasFields id columns p) :
    Gives I (Succeeds blocked) (ofProjection c ask id columns p) := by
  have hexprs := hnode.lt_of_project hcheck
  have hcount : (c.operator id).inputCount? = some 1 := by rw [hnode.operator_eq]; rfl
  have hlength : c.arity id = (projected.map Prod.fst).length := by
    rw [hnode.arity_project, List.length_map]
  unfold ofProjection
  rw [hnode.operator_eq]
  dsimp only [Operator.projection?]
  generalize projected.map Prod.fst = exprs at *
  -- The predicate reads outputs only, so each column of it is one of the expressions.
  refine gives_changed (fun e he => ?_) fun asked hasked => ?_
  · refine Expr.mapColumns?_succeeds fun i hi t => ?_
    exact ⟨_, List.getElem?_eq_getElem (Expr.readsBelow_splitBy exprs.length p e he i hi)⟩
  refine gives_input hcount Nat.one_pos fun j hj => ?_
  obtain rfl := List.mem_singleton.mp (hnode.inputs_eq ▸ hj)
  have hcopied : c.HasFields j (Estimate.splitProjected exprs columns).1 asked := by
    refine ⟨fun i hi => ?_, fun e' he' => ?_⟩
    · obtain ⟨column, -, hcopies⟩ := List.mem_filterMap.mp (ColumnSet.mem_toList_ofList.mp hi)
      obtain ⟨e, he, hcolumn⟩ := Option.bind_eq_some_iff.mp hcopies
      obtain ⟨t, rfl⟩ := Expr.asColumn?_eq_some hcolumn
      exact hexprs _ (List.mem_of_getElem? he) i (List.mem_singleton_self i)
    · obtain ⟨e, -, hthrough⟩ := hasked e' he'
      exact Expr.readsBelow_mapColumns? hthrough
        (fun i _ t k hk => hexprs k (List.mem_of_getElem? hk)) e' rfl
  refine (hinputs j hj _ _ hcopied).bind_succeeds fun number? => ?_
  cases number? with
  | none => exact gives_pure trivial
  | some number =>
    dsimp only
    split
    · exact gives_pure trivial
    · have hcomputed : ∀ i ∈ (Estimate.splitProjected exprs columns).2.toList, i < exprs.length := by
        intro i hi
        have hmem := (List.mem_filter.mp (ColumnSet.mem_toList_ofList.mp hi)).1
        rw [← hlength]
        exact hkey.columns i hmem
      refine (gives_timesComputed hrows hinputs _ hcount hoperands (fun k hk => ?_)
        hcomputed).bind_succeeds fun product? => ?_
      · obtain rfl := List.mem_singleton.mp (hnode.inputs_eq ▸ hk)
        exact hexprs
      · cases product? with
        | some product => exact hrows.bind_succeeds fun rows => gives_pure trivial
        | none => exact gives_pure trivial

theorem gives_sumOf {inputs : List NodeId} (sum : Float)
    (hkey : ∀ j ∈ inputs, c.HasFields j columns p)
    (h : ∀ j ∈ inputs, ∀ columns p, c.HasFields j columns p →
      Gives I (Succeeds blocked) (ask.distinct j columns p)) :
    Gives I (Succeeds blocked) (sumOf c ask columns p sum inputs) := by
  induction inputs generalizing sum with
  | nil => exact gives_pure trivial
  | cons input inputs ih =>
    rw [List.forall_mem_cons] at hkey h
    have hfield : ∀ i < c.arity input, ∃ t, Expr.field? (c.rowType input) i = some (.column i t) :=
      fun i hi => ⟨_, by rw [Expr.field?, List.getElem?_eq_getElem hi]; rfl⟩
    refine gives_changed (fun e he => ?_) fun asked hasked => ?_
    · refine Expr.mapColumns?_succeeds fun i hi _ => ?_
      obtain ⟨t, ht⟩ := hfield i (hkey.1.predicate e he i hi)
      exact ⟨_, ht⟩
    · refine (h.1 columns asked ⟨hkey.1.columns, fun e' he' => ?_⟩).bind_succeeds fun number? => ?_
      · obtain ⟨e, he, hretyped⟩ := hasked e' he'
        refine Expr.readsBelow_mapColumns? hretyped (fun i hi _ k hk j hj => ?_) e' rfl
        have hlt := hkey.1.predicate e he i hi
        obtain ⟨t, ht⟩ := hfield i hlt
        cases ht.symm.trans hk
        rwa [List.mem_singleton.mp hj]
      · cases number? with
        | some number => exact ih _ hkey.2 h.2
        | none => exact gives_pure trivial

end

/-- The number of distinct rows of a checked node is found for fields of the node, if the numbers for
fields of the nodes that it is made of are and its own row count is. -/
theorem gives_answer (hid : id < c.size) (hcheck : c.check id = .ok ())
    (hoperands : ∀ columns, (c.operator id).projection? = some columns →
      ∀ e ∈ columns.map Prod.fst, e.hasOperands = true)
    (hkey : c.HasFields id columns p) (hrows : Gives I (Succeeds blocked) (ask.rowCount id))
    (hinputs : ∀ j ∈ c.inputs id, ∀ columns p, c.HasFields j columns p →
      Gives I (Succeeds blocked) (ask.distinct j columns p))
    (hbest : ∀ j, (c.node id).best = some j → c.HasFields j columns p →
      Gives I (Succeeds blocked) (ask.distinct j columns p))
    (hmembers : ∀ j ∈ (c.node id).members, c.HasFields j columns p →
      Gives I (Succeeds True) (ask.distinct j columns p)) :
    Gives I (Succeeds blocked) ((c.operator id).distinctMethod.answer c ask id columns p) := by
  have hpassed : ∀ {n : Nat} {α : Type} {f : Option Float → Querying α},
      (c.operator id).inputCount? = some n → 0 < n →
      (∀ types, (c.operator id).rowType types = types[0]?.getD default) →
      (∀ number, Gives I (Succeeds blocked) (f number)) →
      Gives I (Succeeds blocked)
        (input c id 0 >>= fun j => ask.distinct j columns p >>= f) := by
    intro n α f hcount hn hrow hf
    have hlt : 0 < (c.inputs id).length := by rwa [Cluster.length_inputs hcount]
    have hfirst : c.input? id 0 = some (c.inputs id)[0] := List.getElem?_eq_getElem hlt
    rw [input, hfirst]
    refine (hinputs _ (List.getElem_mem hlt) _ _ ?_).bind_succeeds hf
    exact hkey.congr (Cluster.arity_eq_of_input? hid hfirst hrow)
  cases hop : c.operator id with
  | scan | correlate | intersect | minus => exact gives_ofKey hrows
  | values => exact gives_unlessTrivial (hrows.bind_succeeds fun rows => gives_pure trivial)
  | filter v condition =>
    obtain ⟨input, hnode⟩ := Cluster.exists_isNode_one hid hop rfl
    exact gives_unlessTrivial (gives_ofFilter hinputs hnode hcheck hkey)
  | project v projected =>
    obtain ⟨input, hnode⟩ := Cluster.exists_isNode_one hid hop rfl
    exact gives_unlessTrivial (gives_ofProjection hrows hinputs hnode hcheck
      (hoperands projected (by rw [hop]; rfl)) hkey)
  | aggregate v group calls =>
    obtain ⟨input, hnode⟩ := Cluster.exists_isNode_one hid hop rfl
    exact gives_unlessTrivial (gives_ofAggregate hinputs hnode hcheck)
  | join algorithm joinType condition =>
    cases algorithm with
    | semi =>
      exact gives_unlessTrivial (hpassed (by rw [hop]; rfl) Nat.two_pos
        (fun types => by rw [hop]; rfl) fun number => gives_pure trivial)
    | _ =>
      refine gives_unlessTrivial (gives_ofJoin hrows hinputs (by rw [hop]; rfl) hid
        (fun left right hboth => ?_) hkey)
      rw [Cluster.arity_eq hid, hop, hboth]
      exact RowType.arity_join _ _ _ _
  | sort | exchange | sortExchange =>
    have hfirst := hpassed (f := pure) (by rw [hop]; rfl) Nat.one_pos
      (fun types => by rw [hop]; rfl) fun number => gives_pure trivial
    simp only [bind_pure] at hfirst
    exact hfirst
  | union v all =>
    exact gives_sumOf _ (fun j hj => hkey.congr (Cluster.arity_eq_of_union hid hop hcheck hj)) hinputs
  | subset rowType =>
    have hfields : ∀ j ∈ (c.node id).members, c.HasFields j columns p := fun j hj =>
      hkey.congr (Cluster.arity_eq_of_mem_members hj)
    unfold Operator.distinctMethod answer
    dsimp only
    split
    · next best hchosen => exact hbest best hchosen (hfields best (Cluster.best_mem_members hchosen))
    · exact gives_distinctLeast none fun j hj => hmembers j hj (hfields j hj)

end DistinctMethod

end

end QueryPlan
