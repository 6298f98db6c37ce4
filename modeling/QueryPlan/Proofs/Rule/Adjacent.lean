import QueryPlan.Proofs.Rule.Equivalence
import QueryPlan.Proofs.Rule.Offers
/-!
# Filters and projections next to each other

What the rules without a join offer stands for the node that it is offered for.
-/
namespace QueryPlan.Cluster

open OutcomeRow Execution

variable {c : Cluster} {supplied : NodeId → List Row} {id offered : NodeId}

/-! ## Columns of a checked node -/

section

variable {v : Convention} {input : NodeId}

theorem IsNode.lt_of_filter {condition : Expr} (h : c.IsNode id (.filter v condition) [input])
    (hcheck : c.check id = .ok ()) : ∀ i ∈ condition.columnList, i < c.arity input := by
  have hcheck := Outcome.mapError_eq_ok.mp hcheck
  rw [h.operator_eq, h.inputs_eq] at hcheck
  apply Expr.lt_of_checkColumns
  unfold Operator.check at hcheck
  dsimp only at hcheck
  split at hcheck
  · exact hcheck
  · exact hcheck
  · cases hcheck

theorem IsNode.lt_of_project {columns : List (Expr × String)}
    (h : c.IsNode id (.project v columns) [input]) (hcheck : c.check id = .ok ()) :
    ∀ e ∈ columns.map Prod.fst, ∀ i ∈ e.columnList, i < c.arity input := by
  have hcheck := Outcome.mapError_eq_ok.mp hcheck
  rw [h.operator_eq, h.inputs_eq] at hcheck
  intro e he
  obtain ⟨p, hp, rfl⟩ := List.mem_map.mp he
  exact Expr.lt_of_checkColumns (Outcome.forM_eq_ok.mp hcheck p hp)

end

/-! ## Rules -/

/-- A condition may be asked below a projection if it is turned through it. -/
theorem standsFor_belowProjection {v v' v'' : Convention} {condition condition' : Expr}
    {columns : List (Expr × String)} {project input filter : NodeId}
    (hid : c.IsNode id (.filter v condition) [project])
    (hproject : c.IsNode project (.project v' columns) [input])
    (hthrough : condition.throughProjection? (columns.map Prod.fst) = some condition')
    (hfilter : c.IsNode filter (.filter v'' condition') [input])
    (hoffered : c.IsNode offered (.project v' columns) [filter]) :
    c.StandsFor supplied id offered := by
  constructor
  · rw [hoffered.arity_project,
      hid.arity_filter,
      hproject.arity_project]
  · intro hsound
    obtain ⟨hprojectSound, hcondition⟩ := (sound_filter_iff hid.operator_eq hid.inputs_eq).mp hsound
    obtain ⟨hinput, hcolumns⟩ :=
      (sound_project_iff hproject.operator_eq hproject.inputs_eq).mp hprojectSound
    have hmeaning := meaning_project supplied hproject.operator_eq hproject.inputs_eq
    have hmeaning' := meaning_filter supplied hfilter.operator_eq hfilter.inputs_eq
    rw [hmeaning] at hcondition
    constructor
    · rw [sound_project_iff hoffered.operator_eq hoffered.inputs_eq, hmeaning',
        sound_filter_iff hfilter.operator_eq hfilter.inputs_eq]
      refine ⟨⟨hinput, fun row hrow => ?_⟩, hcolumns⟩
      exact Expr.isPredicateOn_throughProjection hthrough (hcolumns row hrow)
        (hcondition _ (List.mem_map_of_mem hrow))
    · rw [meaning_project supplied hoffered.operator_eq hoffered.inputs_eq, hmeaning',
        meaning_filter supplied hid.operator_eq hid.inputs_eq, hmeaning, List.filter_map]
      refine ⟨?_, fun row hrow => hrow⟩
      show List.map _ (List.filter _ _) = List.map _ (List.filter _ _)
      congr 1
      exact List.filter_congr fun row _ => Expr.holdsOn_throughProjection hthrough

/-- Two filters are one on both conditions. -/
theorem standsFor_filterMerge {v v' v'' : Convention} {upper lower : Expr} {bottom input : NodeId}
    (hid : c.IsNode id (.filter v upper) [bottom])
    (hbottom : c.IsNode bottom (.filter v' lower) [input])
    (hoffered : c.IsNode offered (.filter v'' (Expr.conjunction [lower, upper])) [input]) :
    c.StandsFor supplied id offered := by
  constructor
  · rw [hoffered.arity_filter,
      hid.arity_filter,
      hbottom.arity_filter]
  · intro hsound
    obtain ⟨hbottomSound, hupper⟩ := (sound_filter_iff hid.operator_eq hid.inputs_eq).mp hsound
    obtain ⟨hinput, hlower⟩ :=
      (sound_filter_iff hbottom.operator_eq hbottom.inputs_eq).mp hbottomSound
    have hmeaning := meaning_filter supplied hbottom.operator_eq hbottom.inputs_eq
    rw [hmeaning] at hupper
    have hboth : ∀ row ∈ (c.meaning supplied input).possible,
        ∀ p ∈ [lower, upper], p.isPredicateOn row = true := by
      intro row hrow
      simp [hlower row hrow, hupper row hrow]
    have hfits := hinput.fits (hbottom.input_lt List.mem_cons_self)
    constructor
    · rw [sound_filter_iff hoffered.operator_eq hoffered.inputs_eq]
      exact ⟨hinput, fun row hrow => (Expr.conjunction_spec (hboth row hrow)).1⟩
    · rw [meaning_filter supplied hoffered.operator_eq hoffered.inputs_eq,
        meaning_filter supplied hid.operator_eq hid.inputs_eq, hmeaning, List.filter_filter]
      refine ⟨List.filter_congr fun row hrow => ?_, fun row hrow => hrow⟩
      rw [(Expr.conjunction_spec (hboth row (hfits.subset row hrow))).2]
      simp [Bool.and_comm]

/-- A row of merged columns is what the upper projection makes of a row of the lower one. -/
theorem projectOn_merged {upper lower merged : List (Expr × String)}
    (h : Rule.MergedColumns upper lower merged) (row : OutcomeRow) :
    projectOn (merged.map Prod.fst) row =
      projectOn (upper.map Prod.fst) (projectOn (lower.map Prod.fst) row) := by
  induction h with
  | nil => rfl
  | cons hcolumn _ ih =>
    unfold projectOn at ih ⊢
    simp only [List.map_cons]
    rw [Expr.evalOn_throughProjection hcolumn.1, ih]

theorem andsTruthful_merged {upper lower merged : List (Expr × String)}
    (h : Rule.MergedColumns upper lower merged) {row : OutcomeRow}
    (hlower : ∀ e ∈ lower.map Prod.fst, e.andsTruthful row = true)
    (hupper : ∀ e ∈ upper.map Prod.fst,
      e.andsTruthful (projectOn (lower.map Prod.fst) row) = true) :
    ∀ e ∈ merged.map Prod.fst, e.andsTruthful row = true := by
  induction h with
  | nil => simp
  | cons hcolumn _ ih =>
    rw [List.map_cons, List.forall_mem_cons] at hupper ⊢
    exact ⟨Expr.andsTruthful_throughProjection hcolumn.1 hlower hupper.1, ih hupper.2⟩

/-- Two projections are one on the columns turned through the lower one. -/
theorem standsFor_projectionMerge {v v' v'' : Convention}
    {upper lower merged : List (Expr × String)} {bottom input : NodeId}
    (hid : c.IsNode id (.project v upper) [bottom])
    (hbottom : c.IsNode bottom (.project v' lower) [input])
    (hmerged : Rule.MergedColumns upper lower merged)
    (hoffered : c.IsNode offered (.project v'' merged) [input]) :
    c.StandsFor supplied id offered := by
  constructor
  · rw [hoffered.arity_project,
      hid.arity_project, hmerged.length_eq]
  · intro hsound
    obtain ⟨hbottomSound, hupper⟩ := (sound_project_iff hid.operator_eq hid.inputs_eq).mp hsound
    obtain ⟨hinput, hlower⟩ :=
      (sound_project_iff hbottom.operator_eq hbottom.inputs_eq).mp hbottomSound
    have hmeaning := meaning_project supplied hbottom.operator_eq hbottom.inputs_eq
    rw [hmeaning, List.forall_mem_map] at hupper
    have hprojected : projectOn (merged.map Prod.fst) =
        projectOn (upper.map Prod.fst) ∘ projectOn (lower.map Prod.fst) :=
      funext (projectOn_merged hmerged)
    constructor
    · rw [sound_project_iff hoffered.operator_eq hoffered.inputs_eq]
      exact ⟨hinput, fun row hrow =>
        andsTruthful_merged hmerged (hlower row hrow) (hupper row hrow)⟩
    · rw [meaning_project supplied hoffered.operator_eq hoffered.inputs_eq,
        meaning_project supplied hid.operator_eq hid.inputs_eq, hmeaning, List.map_map, List.map_map,
        hprojected]
      exact .refl _

/-- A projection on all columns of its input in order may be left out. -/
theorem standsFor_removeIdentity {v : Convention} {columns : List (Expr × String)}
    (hid : c.IsNode id (.project v columns) [offered])
    (hidentity : Expr.areIdentity (columns.map Prod.fst) (c.arity offered) = true) :
    c.StandsFor supplied id offered := by
  have hoffered : offered < c.size := hid.input_lt List.mem_cons_self
  constructor
  · rw [hid.arity_project]
    simpa using (Expr.length_of_areIdentity hidentity).symm
  · intro hsound
    obtain ⟨hinput, -⟩ := (sound_project_iff hid.operator_eq hid.inputs_eq).mp hsound
    have hfits := hinput.fits hoffered
    have hsame : ∀ row ∈ (c.meaning supplied offered).possible,
        projectOn (columns.map Prod.fst) row = row := by
      intro row hrow
      exact projectOn_identity (by rw [hfits.width row hrow]; exact hidentity)
    refine ⟨hinput, ?_⟩
    rw [meaning_project supplied hid.operator_eq hid.inputs_eq]
    constructor
    · have hrows := List.map_congr_left fun row hrow => hsame row (hfits.subset row hrow)
      rw [List.map_id'] at hrows
      exact hrows.symm
    · intro row hrow
      exact List.mem_map.mpr ⟨row, hrow, hsame row hrow⟩

end QueryPlan.Cluster
