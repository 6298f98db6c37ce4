import QueryPlan.Proofs.Rule.Typing
/-!
# The nodes that rules apply to

Each pattern spelled out as the nodes that it finds. On a well typed node of its pattern a rule makes a
decision: what it reads is there, and what it creates can be created.
-/
namespace QueryPlan.Rule

open Cluster

variable {c : Cluster} {id : NodeId}

/-! ## Patterns -/

theorem accepts_filter_iff {o : Operator} :
    OperatorTest.filter.accepts o = true ↔ ∃ condition, o = .filter .none condition := by
  cases o with
  | filter v condition => cases v <;> simp [OperatorTest.accepts]
  | _ => simp [OperatorTest.accepts]

theorem accepts_project_iff {o : Operator} :
    OperatorTest.project.accepts o = true ↔ ∃ columns, o = .project .none columns := by
  cases o with
  | project v columns => cases v <;> simp [OperatorTest.accepts]
  | _ => simp [OperatorTest.accepts]

theorem accepts_join_iff {o : Operator} :
    OperatorTest.join.accepts o = true ↔ ∃ joinType condition, o = .join .logical joinType condition := by
  cases o with
  | join algorithm joinType condition => cases algorithm <;> simp [OperatorTest.accepts]
  | _ => simp [OperatorTest.accepts]

theorem accepts_withInput {test below : OperatorTest} :
    (Pattern.withInputs test [.node below]).accepts c id = true ↔
      test.accepts (c.operator id) = true ∧ ∃ j, c.inputs id = [j] ∧ below.accepts (c.operator j) = true := by
  rw [Pattern.accepts, Bool.and_eq_true]
  refine and_congr_right fun _ => ?_
  rcases c.inputs id with _ | ⟨j, _ | ⟨k, rest⟩⟩
  · simp [Pattern.acceptEach]
  · simp [Pattern.acceptEach, Pattern.accepts]
  · simp [Pattern.acceptEach]

variable (hid : id < c.size)

include hid

/-- A logical filter over a node that passes a test. -/
theorem accepts_filterOver {test : OperatorTest} :
    (Pattern.withInputs .filter [.node test]).accepts c id = true ↔
      ∃ condition j, c.IsNode id (.filter .none condition) [j] ∧ test.accepts (c.operator j) = true := by
  rw [accepts_withInput, accepts_filter_iff]
  constructor
  · rintro ⟨⟨condition, hop⟩, j, hinputs, h⟩
    exact ⟨condition, j, ⟨hid, hop, hinputs⟩, h⟩
  · rintro ⟨condition, j, hnode, h⟩
    exact ⟨⟨condition, hnode.operator_eq⟩, j, hnode.inputs_eq, h⟩

theorem accepts_filterProjectTranspose : filterProjectTranspose.accepts c id = true ↔
    ∃ condition columns project input, c.IsNode id (.filter .none condition) [project] ∧
      c.IsNode project (.project .none columns) [input] := by
  refine (accepts_filterOver hid).trans ⟨?_, ?_⟩
  · rintro ⟨condition, project, hnode, h⟩
    obtain ⟨columns, hop⟩ := accepts_project_iff.mp h
    obtain ⟨input, hproject⟩ := exists_isNode_one (hnode.input_lt List.mem_cons_self) hop rfl
    exact ⟨condition, columns, project, input, hnode, hproject⟩
  · rintro ⟨condition, columns, project, input, hnode, hproject⟩
    exact ⟨condition, project, hnode, accepts_project_iff.mpr ⟨columns, hproject.operator_eq⟩⟩

theorem accepts_filterMerge : filterMerge.accepts c id = true ↔
    ∃ upper lower bottom input, c.IsNode id (.filter .none upper) [bottom] ∧
      c.IsNode bottom (.filter .none lower) [input] := by
  refine (accepts_filterOver hid).trans ⟨?_, ?_⟩
  · rintro ⟨upper, bottom, hnode, h⟩
    obtain ⟨lower, hop⟩ := accepts_filter_iff.mp h
    obtain ⟨input, hbottom⟩ := exists_isNode_one (hnode.input_lt List.mem_cons_self) hop rfl
    exact ⟨upper, lower, bottom, input, hnode, hbottom⟩
  · rintro ⟨upper, lower, bottom, input, hnode, hbottom⟩
    exact ⟨upper, bottom, hnode, accepts_filter_iff.mpr ⟨lower, hbottom.operator_eq⟩⟩

theorem accepts_filterIntoJoin : filterIntoJoin.accepts c id = true ↔
    ∃ condition joinType joinCondition joined left right, c.IsNode id (.filter .none condition) [joined] ∧
      c.IsNode joined (.join .logical joinType joinCondition) [left, right] := by
  refine (accepts_filterOver hid).trans ⟨?_, ?_⟩
  · rintro ⟨condition, joined, hnode, h⟩
    obtain ⟨joinType, joinCondition, hop⟩ := accepts_join_iff.mp h
    obtain ⟨left, right, hjoined⟩ := exists_isNode_two (hnode.input_lt List.mem_cons_self) hop rfl
    exact ⟨condition, joinType, joinCondition, joined, left, right, hnode, hjoined⟩
  · rintro ⟨condition, joinType, joinCondition, joined, left, right, hnode, hjoined⟩
    exact ⟨condition, joined, hnode, accepts_join_iff.mpr ⟨joinType, joinCondition, hjoined.operator_eq⟩⟩

theorem accepts_projectMerge : projectMerge.accepts c id = true ↔
    ∃ upper lower bottom input, c.IsNode id (.project .none upper) [bottom] ∧
      c.IsNode bottom (.project .none lower) [input] := by
  refine accepts_withInput.trans ⟨?_, ?_⟩
  · rintro ⟨hid', bottom, hinputs, h⟩
    obtain ⟨upper, hop⟩ := accepts_project_iff.mp hid'
    obtain ⟨lower, hop'⟩ := accepts_project_iff.mp h
    have hnode : c.IsNode id (.project .none upper) [bottom] := ⟨hid, hop, hinputs⟩
    obtain ⟨input, hbottom⟩ := exists_isNode_one (hnode.input_lt List.mem_cons_self) hop' rfl
    exact ⟨upper, lower, bottom, input, hnode, hbottom⟩
  · rintro ⟨upper, lower, bottom, input, hnode, hbottom⟩
    exact ⟨accepts_project_iff.mpr ⟨upper, hnode.operator_eq⟩, bottom, hnode.inputs_eq,
      accepts_project_iff.mpr ⟨lower, hbottom.operator_eq⟩⟩

theorem accepts_projectRemove : projectRemove.accepts c id = true ↔
    ∃ columns input, c.IsNode id (.project .none columns) [input] := by
  refine accepts_project_iff.trans ⟨?_, ?_⟩
  · rintro ⟨columns, hop⟩
    obtain ⟨input, hnode⟩ := exists_isNode_one hid hop rfl
    exact ⟨columns, input, hnode⟩
  · rintro ⟨columns, input, hnode⟩
    exact ⟨columns, hnode.operator_eq⟩

theorem of_accepts_joinProjectTranspose {sides : JoinSides}
    (h : (joinProjectTranspose sides).accepts c id = true) :
    ∃ joinType condition left right, c.IsNode id (.join .logical joinType condition) [left, right] := by
  rw [Rule.accepts, pattern, Pattern.accepts, Bool.and_eq_true] at h
  obtain ⟨joinType, condition, hop⟩ := accepts_join_iff.mp h.1
  obtain ⟨left, right, hnode⟩ := exists_isNode_two hid hop rfl
  exact ⟨joinType, condition, left, right, hnode⟩

/-! ## Decisions -/

omit hid

variable {c' : Cluster} {v v' : Convention} {left right input : NodeId}

theorem input?_zero {o : Operator} {inputs : List NodeId} (h : c.IsNode id o (left :: inputs)) :
    c.input? id 0 = some left := by
  rw [input?, h.inputs_eq]
  rfl

theorem input?_one {o : Operator} (h : c.IsNode id o [left, right]) : c.input? id 1 = some right := by
  rw [input?, h.inputs_eq]
  rfl

theorem keeping_succeeds (conjuncts : List Expr) (hinput : input < c.size) :
    ∃ kept c', (Filter.keeping input conjuncts).Runs c kept c' := by
  unfold Filter.keeping
  cases Expr.conjunction? conjuncts with
  | none => exact ⟨input, c, Planning.runs_pure.mpr ⟨rfl, rfl⟩⟩
  | some e => exact createDefault_succeeds _ [input] rfl (by simpa using hinput)

/-- A filter over a projection is always swapped with it. -/
theorem belowProjection_succeeds {condition : Expr} {columns : List (Expr × String)} {project : NodeId}
    (hnode : c.IsNode id (.filter v condition) [project])
    (hproject : c.IsNode project (.project v' columns) [input]) (hwell : c.WellTyped id) :
    ∃ offered c', (Filter.belowProjection id).Runs c (some offered) c' := by
  have htyped := (Expr.isTypedCondition_iff.mp (hnode.wellTyped_filter.mp hwell).2).2
  rw [hproject.types_project] at htyped
  obtain ⟨condition', hthrough⟩ := Expr.throughProjection?_succeeds htyped
  have hinput : input < c.size := hproject.input_lt List.mem_cons_self
  obtain ⟨filter, c₁, hfilter⟩ :=
    createDefault_succeeds (c := c) (.filter .none condition') [input] rfl (by simpa using hinput)
  obtain ⟨hgrow, hfilterNode⟩ := runs_createDefault hfilter
  have hlength : [filter].length = (c₁.inputs project).length := by
    rw [(hproject.mono hgrow).inputs_eq]
    rfl
  obtain ⟨offered, c₂, hoffered⟩ := copyOver_succeeds_of_length (hgrow.lt_size hproject.lt_size) hlength
    (by simpa using hfilterNode.lt_size)
  refine ⟨offered, c₂, ?_⟩
  simp only [Filter.belowProjection, Planning.runs_bind, Planning.runs_read, Planning.runs_ofOption]
  refine ⟨_, _, ⟨rfl, rfl⟩, project, c, ⟨input?_zero hnode, rfl⟩, ?_⟩
  rw [hnode.operator_eq, hproject.operator_eq]
  simp only [Operator.filterCondition?, Operator.projection?, Planning.runs_bind, Planning.runs_ofOption,
    Planning.runs_pure]
  exact ⟨condition', c, ⟨hthrough, rfl⟩, input, c, ⟨input?_zero hproject, rfl⟩, filter, c₁, hfilter,
    offered, c₂, hoffered, rfl, rfl⟩

/-- A filter over a filter is always merged with it. -/
theorem filterMerge_succeeds {upper lower : Expr} {bottom : NodeId}
    (hnode : c.IsNode id (.filter v upper) [bottom]) (hbottom : c.IsNode bottom (.filter v' lower) [input]) :
    ∃ offered c', (Filter.merge id).Runs c (some offered) c' := by
  have hinput : input < c.size := hbottom.input_lt List.mem_cons_self
  obtain ⟨offered, c₁, hoffered⟩ := createDefault_succeeds (c := c)
    (.filter .none (Expr.conjunction [lower, upper])) [input] rfl (by simpa using hinput)
  refine ⟨offered, c₁, ?_⟩
  simp only [Filter.merge, Planning.runs_bind, Planning.runs_read, Planning.runs_ofOption]
  refine ⟨_, _, ⟨rfl, rfl⟩, bottom, c, ⟨input?_zero hnode, rfl⟩, ?_⟩
  rw [hnode.operator_eq, hbottom.operator_eq]
  simp only [Operator.filterCondition?, Planning.runs_bind, Planning.runs_ofOption, Planning.runs_pure]
  exact ⟨input, c, ⟨input?_zero hbottom, rfl⟩, offered, c₁, hoffered, rfl, rfl⟩

theorem mergeColumns_succeeds {upper lower : List (Expr × String)}
    (h : ∀ e ∈ upper.map Prod.fst, ∃ e', e.throughProjection? (lower.map Prod.fst) = some e') :
    ∃ merged, (upper.mapM fun (e, name) => do
      let e ← Planning.ofOption (e.throughProjection? (lower.map Prod.fst))
      return (e, name) : Planning (List (Expr × String))).Runs c merged c := by
  induction upper with
  | nil => exact ⟨[], Planning.runs_pure.mpr ⟨rfl, rfl⟩⟩
  | cons u upper ih =>
    rw [List.map_cons, List.forall_mem_cons] at h
    obtain ⟨⟨e, he⟩, h⟩ := h
    obtain ⟨merged, hmerged⟩ := ih h
    refine ⟨(e, u.2) :: merged, Planning.runs_mapM_cons.mpr ⟨(e, u.2), merged, c, ?_, hmerged, rfl⟩⟩
    simp only [Planning.runs_bind, Planning.runs_ofOption, Planning.runs_pure]
    exact ⟨e, c, ⟨he, rfl⟩, rfl, rfl⟩

/-- A projection over a projection is always merged with it. -/
theorem projectionMerge_succeeds {upper lower : List (Expr × String)} {bottom : NodeId}
    (hnode : c.IsNode id (.project v upper) [bottom]) (hbottom : c.IsNode bottom (.project v' lower) [input])
    (hwell : c.WellTyped id) : ∃ offered c', (Projection.merge id).Runs c (some offered) c' := by
  have htyped := (hnode.wellTyped_project.mp hwell).2
  rw [hbottom.types_project] at htyped
  obtain ⟨merged, hmerged⟩ := mergeColumns_succeeds (c := c)
    fun e he => Expr.throughProjection?_succeeds (htyped e he)
  have hinput : input < c.size := hbottom.input_lt List.mem_cons_self
  obtain ⟨offered, c₁, hoffered⟩ :=
    createDefault_succeeds (c := c) (.project .none merged) [input] rfl (by simpa using hinput)
  refine ⟨offered, c₁, ?_⟩
  simp only [Projection.merge, Planning.runs_bind, Planning.runs_read, Planning.runs_ofOption]
  refine ⟨_, _, ⟨rfl, rfl⟩, bottom, c, ⟨input?_zero hnode, rfl⟩, ?_⟩
  rw [hnode.operator_eq, hbottom.operator_eq]
  simp only [Operator.projection?]
  rw [Planning.runs_bind]
  refine ⟨merged, c, hmerged, ?_⟩
  simp only [Planning.runs_bind, Planning.runs_ofOption, Planning.runs_pure]
  exact ⟨input, c, ⟨input?_zero hbottom, rfl⟩, offered, c₁, hoffered, rfl, rfl⟩

/-- A projection is dropped if it is on all columns of its input. -/
theorem removeIdentity_runs {columns : List (Expr × String)}
    (hnode : c.IsNode id (.project v columns) [input]) :
    (Projection.removeIdentity id).Runs c
      (if Expr.areIdentity (columns.map Prod.fst) (c.arity input) then some input else none) c := by
  simp only [Projection.removeIdentity, Planning.runs_bind, Planning.runs_read, Planning.runs_ofOption]
  refine ⟨_, _, ⟨rfl, rfl⟩, input, c, ⟨input?_zero hnode, rfl⟩, ?_⟩
  rw [hnode.operator_eq]
  exact Planning.runs_pure.mpr ⟨rfl, rfl⟩

section

variable {condition joinCondition : Expr} {joinType : JoinType} {joined : NodeId}
  (hnode : c.IsNode id (.filter v condition) [joined])
  (hjoined : c.IsNode joined (.join .logical joinType joinCondition) [left, right])

include hnode hjoined

/-- A filter over a join stays if all of its conjuncts do. -/
theorem intoJoin_idle
    (h : (condition.conjuncts.all fun e => Filter.place joinType (c.arity left) e = .above) = true) :
    (Filter.intoJoin id).Runs c none c := by
  simp only [Filter.intoJoin, Planning.runs_bind, Planning.runs_read, Planning.runs_ofOption]
  refine ⟨_, _, ⟨rfl, rfl⟩, joined, c, ⟨input?_zero hnode, rfl⟩, left, c, ⟨input?_zero hjoined, rfl⟩,
    right, c, ⟨input?_one hjoined, rfl⟩, ?_⟩
  rw [hnode.operator_eq, hjoined.operator_eq]
  simp only [Operator.filterCondition?, Operator.join?]
  rw [if_pos h]
  exact Planning.runs_pure.mpr ⟨rfl, rfl⟩

/-- A filter over a join is distributed otherwise. -/
theorem intoJoin_succeeds
    (h : ¬(condition.conjuncts.all fun e => Filter.place joinType (c.arity left) e = .above) = true) :
    ∃ offered c', (Filter.intoJoin id).Runs c (some offered) c' := by
  have hleft : left < c.size := hjoined.input_lt (by simp)
  have hright : right < c.size := hjoined.input_lt (by simp)
  obtain ⟨left', c₁, hkeptLeft⟩ :=
    keeping_succeeds (placed joinType (c.arity left) condition .left) hleft
  obtain ⟨hgrow₁, hleft'⟩ := runs_keeping hleft hkeptLeft
  obtain ⟨right', c₂, hkeptRight⟩ := keeping_succeeds
    ((placed joinType (c.arity left) condition .right).map (·.shift (-(c.arity left : Int))))
    (hgrow₁.lt_size hright)
  obtain ⟨hgrow₂, hright'⟩ := runs_keeping (hgrow₁.lt_size hright) hkeptRight
  have hinputs : ∀ j ∈ [left', right'], j < c₂.size := by
    intro j hj
    rcases List.mem_pair.mp hj with rfl | rfl
    · exact hgrow₂.lt_size hleft'.lt_size
    · exact hright'.lt_size
  obtain ⟨join, c₃, hjoin⟩ := createDefault_succeeds (.join .logical joinType (Expr.conjunction
    (joinCondition :: placed joinType (c.arity left) condition .condition))) [left', right'] rfl hinputs
  obtain ⟨offered, c₄, hoffered⟩ := keeping_succeeds (c := c₃)
    (placed joinType (c.arity left) condition .above) (runs_createDefault hjoin).2.lt_size
  refine ⟨offered, c₄, ?_⟩
  simp only [Filter.intoJoin, Planning.runs_bind, Planning.runs_read, Planning.runs_ofOption]
  refine ⟨_, _, ⟨rfl, rfl⟩, joined, c, ⟨input?_zero hnode, rfl⟩, left, c, ⟨input?_zero hjoined, rfl⟩,
    right, c, ⟨input?_one hjoined, rfl⟩, ?_⟩
  rw [hnode.operator_eq, hjoined.operator_eq]
  simp only [Operator.filterCondition?, Operator.join?]
  rw [if_neg h]
  simp only [Planning.runs_bind, Planning.runs_pure]
  exact ⟨left', c₁, hkeptLeft, right', c₂, hkeptRight, join, c₃, hjoin, offered, c₄, hoffered, rfl, rfl⟩

end

theorem pull_succeeds (hinput : input < c.size) (pulls : Bool) (offset : Nat) :
    ∃ below exprs, Projection.pull c input pulls offset = some (below, exprs) := by
  unfold Projection.pull
  split
  · next columns hcolumns =>
    obtain ⟨v, hop⟩ := Operator.projection?_eq_some hcolumns
    obtain ⟨below, hproject⟩ := exists_isNode_one hinput hop rfl
    split
    · exact ⟨below, _, by rw [input?_zero hproject]; rfl⟩
    · exact ⟨input, _, rfl⟩
  · exact ⟨input, _, rfl⟩

section

variable {condition : Expr} {joinType : JoinType} {fromLeft fromRight : Bool}
  (hnode : c.IsNode id (.join .logical joinType condition) [left, right])

include hnode

/-- A join stays if no projection can be pulled from under it. -/
theorem aboveJoin_idle (hleft : Projection.canPull c left fromLeft joinType.padsLeft = false)
    (hright : Projection.canPull c right fromRight joinType.padsRight = false) :
    (Projection.aboveJoin fromLeft fromRight id).Runs c none c := by
  simp only [Projection.aboveJoin, Planning.runs_bind, Planning.runs_read]
  refine ⟨_, _, ⟨rfl, rfl⟩, ?_⟩
  rw [hnode.operator_eq]
  simp only [Operator.join?, Planning.runs_bind, Planning.runs_ofOption]
  refine ⟨left, c, ⟨input?_zero hnode, rfl⟩, right, c, ⟨input?_one hnode, rfl⟩, ?_⟩
  rw [hleft, hright]
  exact Planning.runs_pure.mpr ⟨rfl, rfl⟩

/-- A projection that can be pulled from under a join is. -/
theorem aboveJoin_succeeds (hwell : c.WellTyped id)
    (h : ¬(Projection.canPull c left fromLeft joinType.padsLeft = false ∧
      Projection.canPull c right fromRight joinType.padsRight = false)) :
    ∃ offered c', (Projection.aboveJoin fromLeft fromRight id).Runs c (some offered) c' := by
  have hleft : left < c.size := hnode.input_lt (by simp)
  have hright : right < c.size := hnode.input_lt (by simp)
  obtain ⟨newLeft, leftExprs, hpullLeft⟩ :=
    pull_succeeds hleft (Projection.canPull c left fromLeft joinType.padsLeft) 0
  obtain ⟨newRight, rightExprs, hpullRight⟩ :=
    pull_succeeds hright (Projection.canPull c right fromRight joinType.padsRight) (c.arity newLeft)
  have hpulledLeft := pulled_of_pull hleft hpullLeft
  have hpulledRight := pulled_of_pull hright hpullRight
  have htyped := (Expr.isTypedCondition_iff.mp (hnode.wellTyped_join.mp hwell).2).2
  rw [← types_pulled hpulledLeft, ← types_pulled hpulledRight, ← List.map_append] at htyped
  obtain ⟨condition', hthrough⟩ := Expr.throughProjection?_succeeds htyped
  have hinputs : ∀ j ∈ [newLeft, newRight], j < c.size := by
    intro j hj
    rcases List.mem_pair.mp hj with rfl | rfl
    · exact hpulledLeft.lt_size hleft
    · exact hpulledRight.lt_size hright
  obtain ⟨join, c₁, hjoin⟩ :=
    createDefault_succeeds (.join .logical joinType condition') [newLeft, newRight] rfl hinputs
  have hjoinLt : join < c₁.size := (runs_createDefault hjoin).2.lt_size
  obtain ⟨offered, c₂, hoffered⟩ := createDefault_succeeds (c := c₁)
    (.projectOf .none (leftExprs ++ rightExprs) (c.rowType id).names) [join] rfl (by simpa using hjoinLt)
  refine ⟨offered, c₂, ?_⟩
  simp only [Projection.aboveJoin, Planning.runs_bind, Planning.runs_read]
  refine ⟨_, _, ⟨rfl, rfl⟩, ?_⟩
  rw [hnode.operator_eq]
  simp only [Operator.join?, Planning.runs_bind, Planning.runs_ofOption]
  refine ⟨left, c, ⟨input?_zero hnode, rfl⟩, right, c, ⟨input?_one hnode, rfl⟩, ?_⟩
  rw [if_neg (by simpa using h)]
  simp only [Planning.runs_bind, Planning.runs_ofOption, Planning.runs_pure]
  exact ⟨(newLeft, leftExprs), c, ⟨hpullLeft, rfl⟩, (newRight, rightExprs), c, ⟨hpullRight, rfl⟩,
    condition', c, ⟨hthrough, rfl⟩, join, c₁, hjoin, offered, c₂, hoffered, rfl, rfl⟩

end

/-- On a well typed node of its pattern a rule makes a decision: it offers nothing and creates nothing, or
it offers a node. -/
theorem offer_decides (rule : Rule) (hid : id < c.size) (hwell : c.WellTyped id)
    (haccepts : rule.accepts c id = true) :
    (rule.offer id).Runs c none c ∨ ∃ offered c', (rule.offer id).Runs c (some offered) c' := by
  cases rule with
  | filterProjectTranspose =>
    obtain ⟨condition, columns, project, input, hnode, hproject⟩ :=
      (accepts_filterProjectTranspose hid).mp haccepts
    exact .inr (belowProjection_succeeds hnode hproject hwell)
  | projectMerge =>
    obtain ⟨upper, lower, bottom, input, hnode, hbottom⟩ := (accepts_projectMerge hid).mp haccepts
    exact .inr (projectionMerge_succeeds hnode hbottom hwell)
  | projectRemove =>
    obtain ⟨columns, input, hnode⟩ := (accepts_projectRemove hid).mp haccepts
    have hrun := removeIdentity_runs hnode
    split at hrun
    · exact .inr ⟨input, c, hrun⟩
    · exact .inl hrun
  | filterMerge =>
    obtain ⟨upper, lower, bottom, input, hnode, hbottom⟩ := (accepts_filterMerge hid).mp haccepts
    exact .inr (filterMerge_succeeds hnode hbottom)
  | filterIntoJoin =>
    obtain ⟨condition, joinType, joinCondition, joined, left, right, hnode, hjoined⟩ :=
      (accepts_filterIntoJoin hid).mp haccepts
    by_cases h : (condition.conjuncts.all fun e => Filter.place joinType (c.arity left) e = .above) = true
    · exact .inl (intoJoin_idle hnode hjoined h)
    · exact .inr (intoJoin_succeeds hnode hjoined h)
  | joinProjectTranspose sides =>
    obtain ⟨joinType, condition, left, right, hnode⟩ := of_accepts_joinProjectTranspose hid haccepts
    by_cases h : Projection.canPull c left sides.hasLeft joinType.padsLeft = false ∧
        Projection.canPull c right sides.hasRight joinType.padsRight = false
    · exact .inl (aboveJoin_idle hnode h.1 h.2)
    · exact .inr (aboveJoin_succeeds hnode hwell h)

theorem offer_succeeds (rule : Rule) (hid : id < c.size) (hwell : c.WellTyped id)
    (haccepts : rule.accepts c id = true) : ∃ o c', (rule.offer id).Runs c o c' := by
  rcases rule.offer_decides hid hwell haccepts with h | ⟨offered, c', h⟩
  · exact ⟨none, c, h⟩
  · exact ⟨some offered, c', h⟩

end QueryPlan.Rule
