import QueryPlan.Proofs.Rule.Joined
import QueryPlan.Proofs.Session.Typing
/-!
# What rules offer for well typed plans

For a well typed node every rule offers a well typed node with the same column types: conditions are turned
into conditions, and expressions are turned into expressions of the same types.
-/
namespace QueryPlan.Cluster

open Rule

variable {c : Cluster} {id offered : NodeId}

/-! ## Rules with one input at each node -/

theorem keepsTypes_belowProjection {v v' v'' : Convention} {condition condition' : Expr}
    {columns : List (Expr × String)} {project input filter : NodeId}
    (hid : c.IsNode id (.filter v condition) [project])
    (hproject : c.IsNode project (.project v' columns) [input])
    (hthrough : condition.throughProjection? (columns.map Prod.fst) = some condition')
    (hfilter : c.IsNode filter (.filter v'' condition') [input])
    (hoffered : c.IsNode offered (.project v' columns) [filter]) : c.KeepsTypes id offered := by
  intro hwell
  obtain ⟨hprojectWell, hcondition⟩ := hid.wellTyped_filter.mp hwell
  obtain ⟨hinput, hexprs⟩ := hproject.wellTyped_project.mp hprojectWell
  obtain ⟨htruth, htyped⟩ := Expr.isTypedCondition_iff.mp hcondition
  rw [hproject.types_project] at htyped
  obtain ⟨htyped', htype⟩ := Expr.isTyped_throughProjection hthrough htyped hexprs
  have hfilterWell : c.WellTyped filter := hfilter.wellTyped_filter.mpr
    ⟨hinput, Expr.isTypedCondition_iff.mpr ⟨(Expr.isCondition_congr htype).trans htruth, htyped'⟩⟩
  refine ⟨hoffered.wellTyped_project.mpr ⟨hfilterWell, ?_⟩, ?_⟩
  · rw [hfilter.types_filter]
    exact hexprs
  · rw [hoffered.types_project, hid.types_filter, hproject.types_project]

theorem keepsTypes_filterMerge {v v' v'' : Convention} {upper lower : Expr} {bottom input : NodeId}
    (hid : c.IsNode id (.filter v upper) [bottom]) (hbottom : c.IsNode bottom (.filter v' lower) [input])
    (hoffered : c.IsNode offered (.filter v'' (Expr.conjunction [lower, upper])) [input]) :
    c.KeepsTypes id offered := by
  intro hwell
  obtain ⟨hbottomWell, hupper⟩ := hid.wellTyped_filter.mp hwell
  obtain ⟨hinput, hlower⟩ := hbottom.wellTyped_filter.mp hbottomWell
  rw [hbottom.types_filter] at hupper
  refine ⟨hoffered.wellTyped_filter.mpr ⟨hinput, Expr.isTypedCondition_conjunction fun p hp => ?_⟩, ?_⟩
  · rcases List.mem_pair.mp hp with rfl | rfl
    · exact hlower
    · exact hupper
  · rw [hoffered.types_filter, hid.types_filter, hbottom.types_filter]

theorem isTyped_merged {upper lower merged : List (Expr × String)} {types : List DataType}
    (h : MergedColumns upper lower merged)
    (hlower : ∀ e ∈ lower.map Prod.fst, e.isTyped types = true)
    (hupper : ∀ e ∈ upper.map Prod.fst, e.isTyped ((lower.map Prod.fst).map Expr.dataType) = true) :
    (∀ e ∈ merged.map Prod.fst, e.isTyped types = true) ∧
      (merged.map Prod.fst).map Expr.dataType = (upper.map Prod.fst).map Expr.dataType := by
  induction h with
  | nil => exact ⟨by simp, rfl⟩
  | cons hcolumn _ ih =>
    simp only [List.map_cons, List.forall_mem_cons] at hupper ⊢
    obtain ⟨htyped, htype⟩ := Expr.isTyped_throughProjection hcolumn.1 hupper.1 hlower
    obtain ⟨hrest, htypes⟩ := ih hupper.2
    exact ⟨⟨htyped, hrest⟩, by rw [htype, htypes]⟩

theorem keepsTypes_projectionMerge {v v' v'' : Convention} {upper lower merged : List (Expr × String)}
    {bottom input : NodeId} (hid : c.IsNode id (.project v upper) [bottom])
    (hbottom : c.IsNode bottom (.project v' lower) [input]) (hmerged : MergedColumns upper lower merged)
    (hoffered : c.IsNode offered (.project v'' merged) [input]) : c.KeepsTypes id offered := by
  intro hwell
  obtain ⟨hbottomWell, hupper⟩ := hid.wellTyped_project.mp hwell
  obtain ⟨hinput, hlower⟩ := hbottom.wellTyped_project.mp hbottomWell
  rw [hbottom.types_project] at hupper
  obtain ⟨htyped, htypes⟩ := isTyped_merged hmerged hlower hupper
  exact ⟨hoffered.wellTyped_project.mpr ⟨hinput, htyped⟩, by
    rw [hoffered.types_project, hid.types_project, htypes]⟩

/-- A projection on all columns has their types. -/
theorem types_of_areIdentity {exprs : List Expr} {types : List DataType}
    (h : Expr.areIdentity exprs types.length = true) (htyped : ∀ e ∈ exprs, e.isTyped types = true) :
    exprs.map Expr.dataType = types := by
  have hlength := Expr.length_of_areIdentity h
  have hcolumns : exprs.map Expr.asColumn? = (List.range types.length).map some := by
    simpa [Expr.areIdentity] using h
  refine List.ext_getElem (by rw [List.length_map, hlength]) fun i hi hi' => ?_
  have hlt : i < exprs.length := by rwa [List.length_map] at hi
  have hat : exprs[i].asColumn? = some i := by
    have := congrArg (·[i]?) hcolumns
    simpa [hlt, hi'] using this
  obtain ⟨t, ht⟩ := Expr.asColumn?_eq_some hat
  have hcolumn := htyped _ (List.getElem_mem hlt)
  rw [ht, Expr.isTyped_column, List.getElem?_eq_getElem hi'] at hcolumn
  rw [List.getElem_map, ht]
  exact (Option.some.inj hcolumn).symm

theorem keepsTypes_removeIdentity {v : Convention} {columns : List (Expr × String)}
    (hid : c.IsNode id (.project v columns) [offered])
    (hidentity : Expr.areIdentity (columns.map Prod.fst) (c.arity offered) = true) :
    c.KeepsTypes id offered := by
  intro hwell
  obtain ⟨hoffered, hexprs⟩ := hid.wellTyped_project.mp hwell
  refine ⟨hoffered, ?_⟩
  rw [hid.types_project, types_of_areIdentity ?_ hexprs]
  rw [types, RowType.length_types]
  exact hidentity

/-! ## A filter over a join -/

theorem types_of_kept {input kept : NodeId} {conjuncts : List Expr} (h : Rule.Kept c input conjuncts kept) :
    c.types kept = c.types input := by
  rcases h.cases with ⟨-, rfl⟩ | ⟨e, -, hnode⟩
  · rfl
  · exact hnode.types_filter

theorem keepsTypes_kept {input kept : NodeId} {conjuncts : List Expr} (h : Rule.Kept c input conjuncts kept)
    (hinput : c.WellTyped input)
    (hconjuncts : ∀ p ∈ conjuncts, p.isTypedCondition (c.types input) = true) :
    c.WellTyped kept ∧ c.types kept = c.types input := by
  refine ⟨?_, types_of_kept h⟩
  rcases h.cases with ⟨-, rfl⟩ | ⟨e, hconj, hnode⟩
  · exact hinput
  · exact hnode.wellTyped_filter.mpr ⟨hinput, Expr.isTypedCondition_conjunction? hconjuncts hconj⟩

section

variable {joinType : JoinType} {condition : Expr} {left right : List DataType}

theorem isTypedCondition_placed_left (h : condition.isTypedCondition (left ++ right) = true) :
    ∀ p ∈ placed joinType left.length condition .left, p.isTypedCondition left = true := by
  intro p hp
  obtain ⟨hmem, hplace⟩ := mem_placed.mp hp
  have hspec := place_spec joinType left.length p
  rw [hplace] at hspec
  obtain ⟨htruth, htyped⟩ :=
    Expr.isTypedCondition_iff.mp (Expr.isTypedCondition_of_mem_conjuncts h hmem)
  exact Expr.isTypedCondition_iff.mpr ⟨htruth, Expr.isTyped_of_append_left htyped hspec.1⟩

theorem isTypedCondition_placed_right (hwords : right.length ≤ UInt64.size)
    (h : condition.isTypedCondition (left ++ right) = true) :
    ∀ p ∈ (placed joinType left.length condition .right).map (·.shift (-(left.length : Int))),
      p.isTypedCondition right = true := by
  refine List.forall_mem_map.mpr fun p hp => ?_
  obtain ⟨hmem, hplace⟩ := mem_placed.mp hp
  have hspec := place_spec joinType left.length p
  rw [hplace] at hspec
  obtain ⟨htruth, htyped⟩ :=
    Expr.isTypedCondition_iff.mp (Expr.isTypedCondition_of_mem_conjuncts h hmem)
  exact Expr.isTypedCondition_iff.mpr ⟨(Expr.isCondition_congr (Expr.dataType_shift _ _)).trans htruth,
    Expr.isTyped_shift_neg hwords htyped hspec.1⟩

theorem isTypedCondition_placed {p : Filter.Place} {m : Nat}
    (h : condition.isTypedCondition (left ++ right) = true) :
    ∀ e ∈ placed joinType m condition p, e.isTypedCondition (left ++ right) = true :=
  fun _ he => Expr.isTypedCondition_of_mem_conjuncts h (mem_placed.mp he).1

end

theorem keepsTypes_intoJoin {v : Convention} {condition joinCondition : Expr} {joinType : JoinType}
    {joined left right left' right' join : NodeId} (hid : c.IsNode id (.filter v condition) [joined])
    (hjoined : c.IsNode joined (.join .logical joinType joinCondition) [left, right])
    (hleft : Rule.Kept c left (placed joinType (c.arity left) condition .left) left')
    (hright : Rule.Kept c right ((placed joinType (c.arity left) condition .right).map
      (·.shift (-(c.arity left : Int)))) right')
    (hjoin : c.IsNode join (.join .logical joinType (Expr.conjunction
      (joinCondition :: placed joinType (c.arity left) condition .condition))) [left', right'])
    (hoffered : Rule.Kept c join (placed joinType (c.arity left) condition .above) offered)
    (hwords : c.arity right ≤ UInt64.size) : c.KeepsTypes id offered := by
  intro hwell
  have harity : c.arity left = (c.types left).length := (RowType.length_types _).symm
  rw [harity] at hleft hright hjoin hoffered
  obtain ⟨hjoinedWell, hcondition⟩ := hid.wellTyped_filter.mp hwell
  obtain ⟨⟨hleftWell, hrightWell⟩, hjoinCondition⟩ := hjoined.wellTyped_join.mp hjoinedWell
  rw [hjoined.types_join] at hcondition
  rw [arity, ← RowType.length_types] at hwords
  obtain ⟨hleftWell', hleftTypes⟩ :=
    keepsTypes_kept hleft hleftWell (isTypedCondition_placed_left hcondition)
  obtain ⟨hrightWell', hrightTypes⟩ :=
    keepsTypes_kept hright hrightWell (isTypedCondition_placed_right hwords hcondition)
  have hjoinWell : c.WellTyped join := by
    refine hjoin.wellTyped_join.mpr ⟨⟨hleftWell', hrightWell'⟩, ?_⟩
    rw [hleftTypes, hrightTypes]
    refine Expr.isTypedCondition_conjunction (List.forall_mem_cons.mpr ⟨hjoinCondition, ?_⟩)
    exact isTypedCondition_placed hcondition
  have hjoinTypes : c.types join = c.types left ++ c.types right := by
    rw [hjoin.types_join, hleftTypes, hrightTypes]
  obtain ⟨hofferedWell, hofferedTypes⟩ := keepsTypes_kept hoffered hjoinWell
    (by rw [hjoinTypes]; exact isTypedCondition_placed hcondition)
  exact ⟨hofferedWell, by rw [hofferedTypes, hjoinTypes, hid.types_filter, hjoined.types_join]⟩

/-! ## Projections under a join -/

/-- The expressions for the fields of an input have their types. -/
theorem types_pulled {input below : NodeId} {pads : Bool} {offset : Nat} {exprs : List Expr}
    (h : Pulled c input pads offset below exprs) : exprs.map Expr.dataType = c.types input := by
  cases h with
  | kept =>
    rw [Projection.fieldsFrom, List.map_map, types, RowType.types]
    conv_rhs => rw [← List.zipIdx_map_fst 0 (c.rowType input).fields, List.map_map]
    rfl
  | pulled _ hnode =>
    rw [hnode.types_project, List.map_map, List.map_map]
    exact List.map_congr_left fun p _ => Expr.dataType_shift _ _

/-- They are typed over a row that has the columns of what is read from the offset on. -/
theorem isTyped_pulled {input below : NodeId} {pads : Bool} {exprs : List Expr} {before : List DataType}
    (h : Pulled c input pads before.length below exprs) (hwell : c.WellTyped input)
    (hwords : before.length + (c.types below).length ≤ UInt64.size) :
    c.WellTyped below ∧ ∀ e ∈ exprs, e.isTyped (before ++ c.types below) = true := by
  cases h with
  | kept =>
    refine ⟨hwell, fun e he => ?_⟩
    obtain ⟨⟨f, i⟩, hfield, rfl⟩ := List.mem_map.mp he
    have hat := List.mem_zipIdx_iff_getElem?.mp hfield
    refine Expr.isTyped_column.mpr ?_
    rw [List.getElem?_append_right (Nat.le_add_right _ _), Nat.add_sub_cancel_left, types,
      RowType.getElem?_types, hat]
    rfl
  | pulled _ hnode =>
    obtain ⟨hbelow, hexprs⟩ := hnode.wellTyped_project.mp hwell
    refine ⟨hbelow, List.forall_mem_map.mpr fun p hp => ?_⟩
    exact Expr.isTyped_shift_length hwords (hexprs p.1 (List.mem_map_of_mem hp))

theorem keepsTypes_aboveJoin {joinType : JoinType} {condition condition' : Expr}
    {left right newLeft newRight join : NodeId} {leftExprs rightExprs : List Expr}
    {columns : List (Expr × String)} (hid : c.IsNode id (.join .logical joinType condition) [left, right])
    (hleft : Pulled c left joinType.padsLeft 0 newLeft leftExprs)
    (hright : Pulled c right joinType.padsRight (c.arity newLeft) newRight rightExprs)
    (hthrough : condition.throughProjection? (leftExprs ++ rightExprs) = some condition')
    (hjoin : c.IsNode join (.join .logical joinType condition') [newLeft, newRight])
    (hcolumns : columns.map Prod.fst = leftExprs ++ rightExprs)
    (hoffered : c.IsNode offered (.project .none columns) [join]) (hwords : c.arity join ≤ UInt64.size) :
    c.KeepsTypes id offered := by
  intro hwell
  obtain ⟨⟨hleftWell, hrightWell⟩, hcondition⟩ := hid.wellTyped_join.mp hwell
  obtain ⟨htruth, htyped⟩ := Expr.isTypedCondition_iff.mp hcondition
  rw [arity, ← RowType.length_types] at hwords hright
  have hlength : (c.types newLeft).length + (c.types newRight).length ≤ UInt64.size := by
    rw [← List.length_append, ← hjoin.types_join]
    exact hwords
  have hzero : ([] : List DataType).length + (c.types newLeft).length ≤ UInt64.size :=
    Nat.le_trans (by simp) hlength
  obtain ⟨hnewLeft, hleftTyped⟩ := isTyped_pulled hleft hleftWell hzero
  obtain ⟨hnewRight, hrightTyped⟩ := isTyped_pulled hright hrightWell hlength
  have hexprs : ∀ e ∈ leftExprs ++ rightExprs, e.isTyped (c.types newLeft ++ c.types newRight) = true := by
    intro e he
    rcases List.mem_append.mp he with he | he
    · exact Expr.isTyped_append_left (hleftTyped e he)
    · exact hrightTyped e he
  have htypes : (leftExprs ++ rightExprs).map Expr.dataType = c.types left ++ c.types right := by
    rw [List.map_append, types_pulled hleft, types_pulled hright]
  rw [← htypes] at htyped
  obtain ⟨htyped', htype⟩ := Expr.isTyped_throughProjection hthrough htyped hexprs
  have hjoinWell : c.WellTyped join := hjoin.wellTyped_join.mpr ⟨⟨hnewLeft, hnewRight⟩,
    Expr.isTypedCondition_iff.mpr ⟨(Expr.isCondition_congr htype).trans htruth, htyped'⟩⟩
  refine ⟨hoffered.wellTyped_project.mpr ⟨hjoinWell, ?_⟩, ?_⟩
  · rw [hcolumns, hjoin.types_join]
    exact hexprs
  · rw [hoffered.types_project, hcolumns, htypes, hid.types_join]

end QueryPlan.Cluster
