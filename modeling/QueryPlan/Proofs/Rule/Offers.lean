import Mathlib.Data.List.Forall2
import QueryPlan.Proofs.Execution.Delivery
import QueryPlan.Proofs.Session.Growth
/-!
# What the rules offer

Each rule taken apart: which nodes it found, which ones it made, and how their operators are related.
Nothing is said here about rows. `IsNode` names a node by its operator and its inputs; it holds in
every larger session too, so that all of a rule's nodes can be read in one session.
-/
namespace QueryPlan

namespace Cluster

/-- The node is that operator over those inputs. -/
structure IsNode (c : Cluster) (id : NodeId) (operator : Operator) (inputs : List NodeId) : Prop where
  lt_size : id < c.size
  operator_eq : c.operator id = operator
  inputs_eq : c.inputs id = inputs

variable {c c' : Cluster} {id : NodeId}

theorem IsNode.mono {o : Operator} {inputs : List NodeId} (h : c.IsNode id o inputs)
    (hc : c.Extends c') : c'.IsNode id o inputs where
  lt_size := hc.lt_size h.lt_size
  operator_eq := (hc.operator_eq h.lt_size).trans h.operator_eq
  inputs_eq := (hc.inputs_eq h.lt_size).trans h.inputs_eq

theorem IsNode.input_lt {o : Operator} {inputs : List NodeId} (h : c.IsNode id o inputs)
    {j : NodeId} (hj : j ∈ inputs) : j < c.size :=
  inputs_lt_size (h.inputs_eq ▸ hj)

theorem IsNode.arity_filter {input : NodeId} {v : Convention} {condition : Expr}
    (h : c.IsNode id (.filter v condition) [input]) : c.arity id = c.arity input := by
  rw [arity_eq h.lt_size, h.operator_eq, h.inputs_eq]
  rfl

theorem IsNode.arity_project {inputs : List NodeId} {v : Convention} {columns : List (Expr × String)}
    (h : c.IsNode id (.project v columns) inputs) : c.arity id = columns.length := by
  rw [arity_eq h.lt_size, h.operator_eq]
  simp [Operator.rowType, RowType.arity]

theorem Created.isNode {o : Operator} {traits : Traits} {inputs : List NodeId}
    (h : Created c o traits inputs id c') : c'.IsNode id o inputs :=
  ⟨h.lt_size, h.operator_eq, h.inputs_eq⟩

theorem Copied.isNode {o : Operator} {inputs inputs' : List NodeId} {id' : NodeId}
    (h : Copied c id inputs' id' c') (hid : c.IsNode id o inputs) : c'.IsNode id' o inputs' :=
  ⟨h.lt_size, h.operator_eq.trans hid.operator_eq, h.inputs_eq⟩

theorem runs_createDefault {o : Operator} {inputs : List NodeId}
    (h : (createDefault o inputs).Runs c id c') : c.Extends c' ∧ c'.IsNode id o inputs :=
  have hcreated := runs_create h
  ⟨hcreated.grows, hcreated.isNode⟩

theorem lt_size_of_input? {i : Nat} {j : NodeId} (h : c.input? id i = some j) : j < c.size :=
  inputs_lt_size (List.mem_of_getElem? h)

/-- A node of an operator with one input has one. -/
theorem exists_isNode_one {o : Operator} (hid : id < c.size) (hop : c.operator id = o)
    (hcount : o.inputCount? = some 1) : ∃ j, c.IsNode id o [j] := by
  have htakes := takes_inputs hid
  rw [hop, Operator.takes, hcount, decide_eq_true_eq] at htakes
  obtain ⟨j, hj⟩ := List.length_eq_one_iff.mp htakes
  exact ⟨j, hid, hop, hj⟩

theorem exists_isNode_two {o : Operator} (hid : id < c.size) (hop : c.operator id = o)
    (hcount : o.inputCount? = some 2) : ∃ left right, c.IsNode id o [left, right] := by
  have htakes := takes_inputs hid
  rw [hop, Operator.takes, hcount, decide_eq_true_eq] at htakes
  obtain ⟨left, right, hinputs⟩ := List.length_eq_two.mp htakes
  exact ⟨left, right, hid, hop, hinputs⟩

/-- The only input of a node is its first one. -/
theorem isNode_one {o : Operator} {j : NodeId} (hid : id < c.size) (hop : c.operator id = o)
    (hcount : o.inputCount? = some 1) (hj : c.input? id 0 = some j) : c.IsNode id o [j] := by
  obtain ⟨x, hnode⟩ := exists_isNode_one hid hop hcount
  rw [input?, hnode.inputs_eq] at hj
  cases hj
  exact hnode

theorem isNode_two {o : Operator} {left right : NodeId} (hid : id < c.size)
    (hop : c.operator id = o) (hcount : o.inputCount? = some 2)
    (hleft : c.input? id 0 = some left) (hright : c.input? id 1 = some right) :
    c.IsNode id o [left, right] := by
  obtain ⟨x, y, hnode⟩ := exists_isNode_two hid hop hcount
  rw [input?, hnode.inputs_eq] at hleft hright
  cases hleft
  cases hright
  exact hnode

end Cluster

namespace Operator

theorem filterCondition?_eq_some {o : Operator} {e : Expr} (h : o.filterCondition? = some e) :
    ∃ v, o = .filter v e := by
  cases o with
  | filter v e' => cases h; exact ⟨v, rfl⟩
  | _ => cases h

theorem projection?_eq_some {o : Operator} {columns : List (Expr × String)}
    (h : o.projection? = some columns) : ∃ v, o = .project v columns := by
  cases o with
  | project v columns' => cases h; exact ⟨v, rfl⟩
  | _ => cases h

theorem aggregate?_eq_some {o : Operator} {group : ColumnSet} {calls : List AggregateCall}
    (h : o.aggregate? = some (group, calls)) : ∃ v, o = .aggregate v group calls := by
  cases o with
  | aggregate v group' calls' => cases h; exact ⟨v, rfl⟩
  | _ => cases h

end Operator

namespace Rule

open Cluster

variable {c c' : Cluster} {id offered : NodeId}

/-! ## Rules with one input at each node -/

/-- A filter over a projection, and the projection over the filter that is offered for it. -/
theorem runs_belowProjection (hid : id < c.size)
    (h : (Filter.belowProjection id).Runs c (some offered) c') :
    ∃ v v' condition condition' columns project input filter,
      c'.IsNode id (.filter v condition) [project] ∧
      c'.IsNode project (.project v' columns) [input] ∧
      condition.throughProjection? (columns.map Prod.fst) = some condition' ∧
      c'.IsNode filter (.filter .none condition') [input] ∧
      c'.IsNode offered (.project v' columns) [filter] := by
  simp only [Filter.belowProjection, Planning.runs_bind, Planning.runs_read,
    Planning.runs_ofOption] at h
  obtain ⟨_, _, ⟨rfl, rfl⟩, project, _, ⟨hproject, rfl⟩, h⟩ := h
  split at h
  · next condition columns hcondition hcolumns =>
    simp only [Planning.runs_bind, Planning.runs_ofOption, Planning.runs_pure,
      Option.some.injEq] at h
    obtain ⟨condition', _, ⟨hthrough, rfl⟩, input, _, ⟨hinput, rfl⟩, filter, c₁, hfilter, offered',
      c₂, hcopy, rfl, rfl⟩ := h
    obtain ⟨v, hop⟩ := Operator.filterCondition?_eq_some hcondition
    obtain ⟨v', hop'⟩ := Operator.projection?_eq_some hcolumns
    have hnode := isNode_one hid hop rfl hproject
    have hprojectNode := isNode_one (lt_size_of_input? hproject) hop' rfl hinput
    obtain ⟨hgrow₁, hfilterNode⟩ := runs_createDefault hfilter
    have hcopied := runs_copyOver (hgrow₁.lt_size hprojectNode.lt_size) hcopy
    have hgrow := hgrow₁.trans hcopied.grows
    exact ⟨v, v', condition, condition', columns, project, input, filter, hnode.mono hgrow,
      hprojectNode.mono hgrow, hthrough, hfilterNode.mono hcopied.grows,
      hcopied.isNode (hprojectNode.mono hgrow₁)⟩
  · simp at h

/-- Two filters, and the filter on both conditions that is offered for them. -/
theorem runs_filterMerge (hid : id < c.size) (h : (Filter.merge id).Runs c (some offered) c') :
    ∃ v v' upper lower bottom input,
      c'.IsNode id (.filter v upper) [bottom] ∧ c'.IsNode bottom (.filter v' lower) [input] ∧
      c'.IsNode offered (.filter .none (Expr.conjunction [lower, upper])) [input] := by
  simp only [Filter.merge, Planning.runs_bind, Planning.runs_read, Planning.runs_ofOption] at h
  obtain ⟨_, _, ⟨rfl, rfl⟩, bottom, _, ⟨hbottom, rfl⟩, h⟩ := h
  split at h
  · next upper lower hupper hlower =>
    simp only [Planning.runs_bind, Planning.runs_ofOption, Planning.runs_pure,
      Option.some.injEq] at h
    obtain ⟨input, _, ⟨hinput, rfl⟩, offered', c₁, hcreate, rfl, rfl⟩ := h
    obtain ⟨v, hop⟩ := Operator.filterCondition?_eq_some hupper
    obtain ⟨v', hop'⟩ := Operator.filterCondition?_eq_some hlower
    have hnode := isNode_one hid hop rfl hbottom
    have hbottomNode := isNode_one (lt_size_of_input? hbottom) hop' rfl hinput
    obtain ⟨hgrow, hoffered⟩ := runs_createDefault hcreate
    exact ⟨v, v', upper, lower, bottom, input, hnode.mono hgrow, hbottomNode.mono hgrow, hoffered⟩
  · simp at h

/-- The columns of two projections as one. -/
def MergedColumns (upper lower merged : List (Expr × String)) : Prop :=
  List.Forall₂ (fun u m => u.1.throughProjection? (lower.map Prod.fst) = some m.1 ∧ u.2 = m.2)
    upper merged

theorem runs_mergeColumns {upper lower merged : List (Expr × String)}
    (h : (upper.mapM fun (e, name) => do
      let e ← Planning.ofOption (e.throughProjection? (lower.map Prod.fst))
      return (e, name) : Planning (List (Expr × String))).Runs c merged c') :
    MergedColumns upper lower merged ∧ c = c' := by
  induction upper generalizing c merged with
  | nil =>
    obtain ⟨rfl, rfl⟩ := Planning.runs_pure.mp h
    exact ⟨List.Forall₂.nil, rfl⟩
  | cons u upper ih =>
    obtain ⟨m, ms, c₁, hm, hms, rfl⟩ := Planning.runs_mapM_cons.mp h
    simp only [Planning.runs_bind, Planning.runs_ofOption, Planning.runs_pure] at hm
    obtain ⟨e, _, ⟨he, rfl⟩, rfl, rfl⟩ := hm
    obtain ⟨hrest, rfl⟩ := ih hms
    exact ⟨List.Forall₂.cons ⟨he, rfl⟩ hrest, rfl⟩

/-- Two projections, and the projection that is offered for them. -/
theorem runs_projectionMerge (hid : id < c.size)
    (h : (Projection.merge id).Runs c (some offered) c') :
    ∃ v v' upper lower merged bottom input,
      c'.IsNode id (.project v upper) [bottom] ∧ c'.IsNode bottom (.project v' lower) [input] ∧
      MergedColumns upper lower merged ∧ c'.IsNode offered (.project .none merged) [input] := by
  simp only [Projection.merge, Planning.runs_bind, Planning.runs_read, Planning.runs_ofOption] at h
  obtain ⟨_, _, ⟨rfl, rfl⟩, bottom, _, ⟨hbottom, rfl⟩, h⟩ := h
  split at h
  · next upper lower hupper hlower =>
    rw [Planning.runs_bind] at h
    obtain ⟨merged, c₁, hmerge, h⟩ := h
    obtain ⟨hmerged, rfl⟩ := runs_mergeColumns hmerge
    simp only [Planning.runs_bind, Planning.runs_ofOption, Planning.runs_pure,
      Option.some.injEq] at h
    obtain ⟨input, _, ⟨hinput, rfl⟩, offered', c₁, hcreate, rfl, rfl⟩ := h
    obtain ⟨v, hop⟩ := Operator.projection?_eq_some hupper
    obtain ⟨v', hop'⟩ := Operator.projection?_eq_some hlower
    have hnode := isNode_one hid hop rfl hbottom
    have hbottomNode := isNode_one (lt_size_of_input? hbottom) hop' rfl hinput
    obtain ⟨hgrow, hoffered⟩ := runs_createDefault hcreate
    exact ⟨v, v', upper, lower, merged, bottom, input, hnode.mono hgrow, hbottomNode.mono hgrow,
      hmerged, hoffered⟩
  · simp at h

/-- A projection on all columns of its input, for which the input is offered. -/
theorem runs_removeIdentity (hid : id < c.size)
    (h : (Projection.removeIdentity id).Runs c (some offered) c') :
    c = c' ∧ ∃ v columns, c.IsNode id (.project v columns) [offered] ∧
      Expr.areIdentity (columns.map Prod.fst) (c.arity offered) = true := by
  simp only [Projection.removeIdentity, Planning.runs_bind, Planning.runs_read,
    Planning.runs_ofOption] at h
  obtain ⟨_, _, ⟨rfl, rfl⟩, input, _, ⟨hinput, rfl⟩, h⟩ := h
  split at h
  · next columns hcolumns =>
    obtain ⟨heq, rfl⟩ := Planning.runs_pure.mp h
    split at heq
    · next hidentity =>
      cases heq
      obtain ⟨v, hop⟩ := Operator.projection?_eq_some hcolumns
      exact ⟨rfl, v, columns, isNode_one hid hop rfl hinput, hidentity⟩
    · cases heq
  · simp at h

/-! ## Rules for joins -/

theorem accepts_join {c : Cluster} {id : NodeId} (h : OperatorTest.join.accepts (c.operator id) = true) :
    ∃ joinType condition, c.operator id = .join .logical joinType condition := by
  cases hop : c.operator id with
  | join algorithm joinType condition =>
    rw [hop] at h
    cases algorithm with
    | logical => exact ⟨joinType, condition, rfl⟩
    | _ => cases h
  | _ =>
    rw [hop] at h
    cases h

/-- A node under a filter on conjuncts, or the node itself if there is nothing to filter by. -/
structure Kept (c : Cluster) (input : NodeId) (conjuncts : List Expr) (id : NodeId) : Prop where
  lt_size : id < c.size
  node : match Expr.conjunction? conjuncts with
    | none => id = input
    | some e => c.IsNode id (.filter .none e) [input]

theorem Kept.mono {input : NodeId} {conjuncts : List Expr} (h : Kept c input conjuncts id)
    (hc : c.Extends c') : Kept c' input conjuncts id := by
  refine ⟨hc.lt_size h.lt_size, ?_⟩
  have hnode := h.node
  cases hconj : Expr.conjunction? conjuncts with
  | none =>
    rw [hconj] at hnode
    exact hnode
  | some e =>
    rw [hconj] at hnode
    exact hnode.mono hc

theorem Kept.cases {input : NodeId} {conjuncts : List Expr} (h : Kept c input conjuncts id) :
    (Expr.conjunction? conjuncts = none ∧ id = input) ∨
      ∃ e, Expr.conjunction? conjuncts = some e ∧ c.IsNode id (.filter .none e) [input] := by
  have hnode := h.node
  cases hconj : Expr.conjunction? conjuncts with
  | none =>
    rw [hconj] at hnode
    exact .inl ⟨rfl, hnode⟩
  | some e =>
    rw [hconj] at hnode
    exact .inr ⟨e, rfl, hnode⟩

theorem Kept.input_lt {input : NodeId} {conjuncts : List Expr} (h : Kept c input conjuncts id) :
    input < c.size := by
  rcases h.cases with ⟨-, rfl⟩ | ⟨e, -, hnode⟩
  · exact h.lt_size
  · exact hnode.input_lt List.mem_cons_self

theorem Kept.arity_eq {input : NodeId} {conjuncts : List Expr} (h : Kept c input conjuncts id) :
    c.arity id = c.arity input := by
  rcases h.cases with ⟨-, rfl⟩ | ⟨e, -, hnode⟩
  · rfl
  · exact hnode.arity_filter

theorem runs_keeping {input : NodeId} {conjuncts : List Expr} (hinput : input < c.size)
    (h : (Filter.keeping input conjuncts).Runs c id c') :
    c.Extends c' ∧ Kept c' input conjuncts id := by
  unfold Filter.keeping at h
  cases hconj : Expr.conjunction? conjuncts with
  | none =>
    rw [hconj] at h
    obtain ⟨rfl, rfl⟩ := Planning.runs_pure.mp h
    exact ⟨.refl _, hinput, by rw [hconj]⟩
  | some e =>
    rw [hconj] at h
    obtain ⟨hgrow, hnode⟩ := runs_createDefault h
    exact ⟨hgrow, hnode.lt_size, by rw [hconj]; exact hnode⟩

/-- The conjuncts of a condition that go to a place. -/
def placed (joinType : JoinType) (leftCount : Nat) (condition : Expr) (p : Filter.Place) :
    List Expr :=
  condition.conjuncts.filter fun e => Filter.place joinType leftCount e = p

/-- A filter over a join of which not all conjuncts stay, and the filters in and below the join that are
offered for it. -/
theorem runs_intoJoin (hid : id < c.size) (haccepts : filterIntoJoin.accepts c id = true)
    (h : (Filter.intoJoin id).Runs c (some offered) c') :
    ∃ v condition joinType joinCondition joined left right left' right' join,
      c'.IsNode id (.filter v condition) [joined] ∧
      c'.IsNode joined (.join .logical joinType joinCondition) [left, right] ∧
      Kept c' left (placed joinType (c'.arity left) condition .left) left' ∧
      Kept c' right ((placed joinType (c'.arity left) condition .right).map
        (·.shift (-(c'.arity left : Int)))) right' ∧
      c'.IsNode join (.join .logical joinType (Expr.conjunction
        (joinCondition :: placed joinType (c'.arity left) condition .condition))) [left', right'] ∧
      Kept c' join (placed joinType (c'.arity left) condition .above) offered ∧
      ¬(condition.conjuncts.all fun e => Filter.place joinType (c'.arity left) e = .above) = true := by
  simp only [Filter.intoJoin, Planning.runs_bind, Planning.runs_read, Planning.runs_ofOption] at h
  obtain ⟨_, _, ⟨rfl, rfl⟩, joined, _, ⟨hjoined, rfl⟩, left, _, ⟨hleft, rfl⟩, right, _,
    ⟨hright, rfl⟩, h⟩ := h
  split at h
  · next condition joinType joinCondition hcondition hjoin =>
    obtain ⟨v, hop⟩ := Operator.filterCondition?_eq_some hcondition
    have hnode := isNode_one hid hop rfl hjoined
    have htest : OperatorTest.join.accepts (c.operator joined) = true := by
      simp only [Rule.accepts, pattern, Pattern.accepts, hnode.inputs_eq, Pattern.acceptEach,
        Bool.and_eq_true] at haccepts
      exact haccepts.2.1
    obtain ⟨joinType', joinCondition', hop'⟩ := accepts_join htest
    rw [hop'] at hjoin
    cases hjoin
    have hjoinedNode := isNode_two (lt_size_of_input? hjoined) hop' rfl hleft hright
    split at h
    · simp at h
    · next hmoves =>
      simp only [Planning.runs_bind, Planning.runs_pure, Option.some.injEq] at h
      obtain ⟨left', c₁, hkeepLeft, right', c₂, hkeepRight, join, c₃, hcreate, offered', c₄, hkeep,
        rfl, rfl⟩ := h
      obtain ⟨hgrow₁, hleft'⟩ := runs_keeping (lt_size_of_input? hleft) hkeepLeft
      obtain ⟨hgrow₂, hright'⟩ := runs_keeping (hgrow₁.lt_size (lt_size_of_input? hright)) hkeepRight
      obtain ⟨hgrow₃, hjoin⟩ := runs_createDefault hcreate
      obtain ⟨hgrow₄, hoffered⟩ := runs_keeping hjoin.lt_size hkeep
      have hgrow₃₄ := hgrow₃.trans hgrow₄
      have hgrow := (hgrow₁.trans hgrow₂).trans hgrow₃₄
      have harity := hgrow.arity_eq (lt_size_of_input? hleft)
      rw [← harity] at hleft' hright' hjoin hoffered hmoves
      exact ⟨v, condition, joinType, joinCondition, joined, left, right, left', right', join,
        hnode.mono hgrow, hjoinedNode.mono hgrow, hleft'.mono (hgrow₂.trans hgrow₃₄),
        hright'.mono hgrow₃₄, hjoin.mono hgrow₄, hoffered, hmoves⟩
  · simp at h

/-- What a join reads in place of an input, with the fields of the input as expressions over it from
an ordinal on: the input itself, or what is below a projection on a side that is not padded. -/
inductive Pulled (c : Cluster) (input : NodeId) (pads : Bool) (offset : Nat) :
    NodeId → List Expr → Prop
  | kept : Pulled c input pads offset input (Projection.fieldsFrom (c.rowType input) offset)
  | pulled {v : Convention} {columns : List (Expr × String)} {below : NodeId}
      (unpadded : pads = false) (node : c.IsNode input (.project v columns) [below]) :
      Pulled c input pads offset below (columns.map fun p => p.1.shift offset)

theorem Pulled.mono {input below : NodeId} {pads : Bool} {offset : Nat} {exprs : List Expr}
    (h : Pulled c input pads offset below exprs) (hinput : input < c.size) (hc : c.Extends c') :
    Pulled c' input pads offset below exprs := by
  cases h with
  | kept =>
    rw [← hc.rowType_eq hinput]
    exact .kept
  | pulled hpads hnode => exact .pulled hpads (hnode.mono hc)

theorem Pulled.lt_size {input below : NodeId} {pads : Bool} {offset : Nat} {exprs : List Expr}
    (h : Pulled c input pads offset below exprs) (hinput : input < c.size) : below < c.size := by
  cases h with
  | kept => exact hinput
  | pulled _ hnode => exact hnode.input_lt List.mem_cons_self

theorem pulled_of_pull {input below : NodeId} {wanted pads : Bool} {offset : Nat}
    {exprs : List Expr} (hinput : input < c.size)
    (h : Projection.pull c input (Projection.canPull c input wanted pads) offset
      = some (below, exprs)) : Pulled c input pads offset below exprs := by
  unfold Projection.pull at h
  split at h
  · next columns hcolumns =>
    split at h
    · next hpull =>
      obtain ⟨x, hx, heq⟩ := Option.map_eq_some_iff.mp h
      cases heq
      obtain ⟨v, hop⟩ := Operator.projection?_eq_some hcolumns
      simp only [Projection.canPull, Bool.and_eq_true, Bool.not_eq_true'] at hpull
      exact .pulled hpull.1.2 (isNode_one hinput hop rfl hx)
    · cases h
      exact .kept
  · cases h
    exact .kept

/-- What is pulled is the input of a projection. -/
theorem isNode_of_pull {input below : NodeId} {wanted pads : Bool} {offset : Nat} {exprs : List Expr}
    (hinput : input < c.size) (hpull : Projection.canPull c input wanted pads = true)
    (h : Projection.pull c input (Projection.canPull c input wanted pads) offset = some (below, exprs)) :
    ∃ v columns, c.IsNode input (.project v columns) [below] := by
  have hsome := hpull
  simp only [Projection.canPull, Bool.and_eq_true] at hsome
  obtain ⟨columns, hcolumns⟩ := Option.isSome_iff_exists.mp hsome.2
  obtain ⟨v, hop⟩ := Operator.projection?_eq_some hcolumns
  simp only [Projection.pull, hcolumns, if_pos hpull] at h
  obtain ⟨x, hx, heq⟩ := Option.map_eq_some_iff.mp h
  cases heq
  exact ⟨v, columns, isNode_one hinput hop rfl hx⟩

theorem map_fst_zip_projectionNames (exprs : List Expr) (names : List String) :
    (exprs.zip (Operator.projectionNames exprs.length names)).map Prod.fst = exprs :=
  List.map_fst_zip (by simp [Operator.projectionNames])

/-- A join over at least one projection, and the projection over a join that is offered for it. -/
theorem runs_aboveJoin {sides : JoinSides} (hid : id < c.size)
    (haccepts : (joinProjectTranspose sides).accepts c id = true)
    (h : (Projection.aboveJoin sides.hasLeft sides.hasRight id).Runs c (some offered) c') :
    ∃ joinType condition condition' left right newLeft newRight leftExprs rightExprs join columns,
      c'.IsNode id (.join .logical joinType condition) [left, right] ∧
      Pulled c' left joinType.padsLeft 0 newLeft leftExprs ∧
      Pulled c' right joinType.padsRight (c'.arity newLeft) newRight rightExprs ∧
      condition.throughProjection? (leftExprs ++ rightExprs) = some condition' ∧
      c'.IsNode join (.join .logical joinType condition') [newLeft, newRight] ∧
      columns.map Prod.fst = leftExprs ++ rightExprs ∧
      c'.IsNode offered (.project .none columns) [join] ∧
      ((∃ v columns, c'.IsNode left (.project v columns) [newLeft]) ∨
        ∃ v columns, c'.IsNode right (.project v columns) [newRight]) := by
  have htest : OperatorTest.join.accepts (c.operator id) = true := by
    simp only [Rule.accepts, pattern, Pattern.accepts, Bool.and_eq_true] at haccepts
    exact haccepts.1
  obtain ⟨joinType, condition, hop⟩ := accepts_join htest
  simp only [Projection.aboveJoin, Planning.runs_bind, Planning.runs_read] at h
  obtain ⟨_, _, ⟨rfl, rfl⟩, h⟩ := h
  rw [hop] at h
  simp only [Operator.join?, Planning.runs_bind, Planning.runs_ofOption] at h
  obtain ⟨left, _, ⟨hleft, rfl⟩, right, _, ⟨hright, rfl⟩, h⟩ := h
  have hnode := isNode_two hid hop rfl hleft hright
  split at h
  · simp at h
  · next hpulls =>
    simp only [Planning.runs_bind, Planning.runs_ofOption, Planning.runs_pure,
      Option.some.injEq] at h
    obtain ⟨⟨newLeft, leftExprs⟩, _, ⟨hpullLeft, rfl⟩, ⟨newRight, rightExprs⟩, _,
      ⟨hpullRight, rfl⟩, condition', _, ⟨hthrough, rfl⟩, join, c₁, hcreate, offered', c₂, hcreate',
      rfl, rfl⟩ := h
    obtain ⟨hgrow₁, hjoin⟩ := runs_createDefault hcreate
    obtain ⟨hgrow₂, hoffered⟩ := runs_createDefault hcreate'
    have hgrow := hgrow₁.trans hgrow₂
    have hltLeft := lt_size_of_input? hleft
    have hltRight := lt_size_of_input? hright
    have hpulledLeft := pulled_of_pull hltLeft hpullLeft
    have hpulledRight := pulled_of_pull hltRight hpullRight
    have hltNew : newLeft < c.size := hpulledLeft.lt_size hltLeft
    rw [← hgrow.arity_eq hltNew] at hpulledRight
    refine ⟨joinType, condition, condition', left, right, newLeft, newRight, leftExprs, rightExprs,
      join, _, hnode.mono hgrow, hpulledLeft.mono hltLeft hgrow, hpulledRight.mono hltRight hgrow,
      hthrough, hjoin.mono hgrow₂, ?_, hoffered, ?_⟩
    · exact map_fst_zip_projectionNames _ _
    · simp only [Bool.and_eq_true, Bool.not_eq_true', not_and_or, Bool.not_eq_false] at hpulls
      refine hpulls.imp (fun hpull => ?_) fun hpull => ?_
      · obtain ⟨v, columns, hproject⟩ := isNode_of_pull hltLeft hpull hpullLeft
        exact ⟨v, columns, hproject.mono hgrow⟩
      · obtain ⟨v, columns, hproject⟩ := isNode_of_pull hltRight hpull hpullRight
        exact ⟨v, columns, hproject.mono hgrow⟩

/-! ## All rules -/

/-- What a rule offers for a node: the nodes that it has found and made, and how they are related. -/
inductive Offered (c : Cluster) (id offered : NodeId) : Rule → Prop
  | filterProjectTranspose {v v' : Convention} {condition condition' : Expr}
      {columns : List (Expr × String)} {project input filter : NodeId}
      (hnode : c.IsNode id (.filter v condition) [project])
      (hproject : c.IsNode project (.project v' columns) [input])
      (hthrough : condition.throughProjection? (columns.map Prod.fst) = some condition')
      (hfilter : c.IsNode filter (.filter .none condition') [input])
      (hoffered : c.IsNode offered (.project v' columns) [filter]) :
      Offered c id offered .filterProjectTranspose
  | projectMerge {v v' : Convention} {upper lower merged : List (Expr × String)} {bottom input : NodeId}
      (hnode : c.IsNode id (.project v upper) [bottom])
      (hbottom : c.IsNode bottom (.project v' lower) [input]) (hmerged : MergedColumns upper lower merged)
      (hoffered : c.IsNode offered (.project .none merged) [input]) : Offered c id offered .projectMerge
  | projectRemove {v : Convention} {columns : List (Expr × String)}
      (hnode : c.IsNode id (.project v columns) [offered])
      (hidentity : Expr.areIdentity (columns.map Prod.fst) (c.arity offered) = true) :
      Offered c id offered .projectRemove
  | filterMerge {v v' : Convention} {upper lower : Expr} {bottom input : NodeId}
      (hnode : c.IsNode id (.filter v upper) [bottom])
      (hbottom : c.IsNode bottom (.filter v' lower) [input])
      (hoffered : c.IsNode offered (.filter .none (Expr.conjunction [lower, upper])) [input]) :
      Offered c id offered .filterMerge
  | filterIntoJoin {v : Convention} {condition joinCondition : Expr} {joinType : JoinType}
      {joined left right left' right' join : NodeId} (hnode : c.IsNode id (.filter v condition) [joined])
      (hjoined : c.IsNode joined (.join .logical joinType joinCondition) [left, right])
      (hleft : Kept c left (placed joinType (c.arity left) condition .left) left')
      (hright : Kept c right ((placed joinType (c.arity left) condition .right).map
        (·.shift (-(c.arity left : Int)))) right')
      (hjoin : c.IsNode join (.join .logical joinType (Expr.conjunction
        (joinCondition :: placed joinType (c.arity left) condition .condition))) [left', right'])
      (hoffered : Kept c join (placed joinType (c.arity left) condition .above) offered)
      (hmoves : ¬(condition.conjuncts.all fun e =>
        Filter.place joinType (c.arity left) e = .above) = true) : Offered c id offered .filterIntoJoin
  | joinProjectTranspose {sides : JoinSides} {joinType : JoinType} {condition condition' : Expr}
      {left right newLeft newRight join : NodeId} {leftExprs rightExprs : List Expr}
      {columns : List (Expr × String)}
      (hnode : c.IsNode id (.join .logical joinType condition) [left, right])
      (hleft : Pulled c left joinType.padsLeft 0 newLeft leftExprs)
      (hright : Pulled c right joinType.padsRight (c.arity newLeft) newRight rightExprs)
      (hthrough : condition.throughProjection? (leftExprs ++ rightExprs) = some condition')
      (hjoin : c.IsNode join (.join .logical joinType condition') [newLeft, newRight])
      (hcolumns : columns.map Prod.fst = leftExprs ++ rightExprs)
      (hoffered : c.IsNode offered (.project .none columns) [join])
      (hpulled : (∃ v columns, c.IsNode left (.project v columns) [newLeft]) ∨
        ∃ v columns, c.IsNode right (.project v columns) [newRight]) :
      Offered c id offered (.joinProjectTranspose sides)

/-- What a rule has offered can be read in every larger session. -/
theorem offered_of_runs (rule : Rule) {C : Cluster} (hid : id < c.size)
    (haccepts : rule.accepts c id = true) (h : (rule.offer id).Runs c (some offered) c')
    (hC : c'.Extends C) : offered < c'.size ∧ rule.Offered C id offered := by
  cases rule with
  | filterProjectTranspose =>
    obtain ⟨v, v', condition, condition', columns, project, input, filter, hnode, hproject, hthrough,
      hfilter, hoffered⟩ := runs_belowProjection hid h
    exact ⟨hoffered.lt_size, .filterProjectTranspose (hnode.mono hC) (hproject.mono hC) hthrough
      (hfilter.mono hC) (hoffered.mono hC)⟩
  | projectMerge =>
    obtain ⟨v, v', upper, lower, merged, bottom, input, hnode, hbottom, hmerged, hoffered⟩ :=
      runs_projectionMerge hid h
    exact ⟨hoffered.lt_size, .projectMerge (hnode.mono hC) (hbottom.mono hC) hmerged (hoffered.mono hC)⟩
  | projectRemove =>
    obtain ⟨rfl, v, columns, hnode, hidentity⟩ := runs_removeIdentity hid h
    have hoffered : offered < c.size := hnode.input_lt List.mem_cons_self
    rw [← hC.arity_eq hoffered] at hidentity
    exact ⟨hoffered, .projectRemove (hnode.mono hC) hidentity⟩
  | filterMerge =>
    obtain ⟨v, v', upper, lower, bottom, input, hnode, hbottom, hoffered⟩ := runs_filterMerge hid h
    exact ⟨hoffered.lt_size, .filterMerge (hnode.mono hC) (hbottom.mono hC) (hoffered.mono hC)⟩
  | filterIntoJoin =>
    obtain ⟨v, condition, joinType, joinCondition, joined, left, right, left', right', join, hnode,
      hjoined, hleft, hright, hjoin, hoffered, hmoves⟩ := runs_intoJoin hid haccepts h
    have hlt := hoffered.lt_size
    rw [← hC.arity_eq (hjoined.input_lt (by simp))] at hleft hright hjoin hoffered hmoves
    exact ⟨hlt, .filterIntoJoin (hnode.mono hC) (hjoined.mono hC) (hleft.mono hC) (hright.mono hC)
      (hjoin.mono hC) (hoffered.mono hC) hmoves⟩
  | joinProjectTranspose sides =>
    obtain ⟨joinType, condition, condition', left, right, newLeft, newRight, leftExprs, rightExprs,
      join, columns, hnode, hleft, hright, hthrough, hjoin, hcolumns, hoffered, hpulled⟩ :=
      runs_aboveJoin hid haccepts h
    rw [← hC.arity_eq (hjoin.input_lt (by simp))] at hright
    exact ⟨hoffered.lt_size, .joinProjectTranspose (hnode.mono hC)
      (hleft.mono (hnode.input_lt (by simp)) hC) (hright.mono (hnode.input_lt (by simp)) hC) hthrough
      (hjoin.mono hC) hcolumns (hoffered.mono hC) (hpulled.imp
        (fun ⟨v, below, h⟩ => ⟨v, below, h.mono hC⟩) fun ⟨v, below, h⟩ => ⟨v, below, h.mono hC⟩)⟩

end Rule

end QueryPlan
