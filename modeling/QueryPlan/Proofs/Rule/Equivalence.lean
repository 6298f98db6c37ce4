import QueryPlan.Proofs.Execution.Meaning
/-!
# When one node may stand for another

`StandsFor c supplied i j` says that `j` may take the place of `i`: it has as many columns, and if
the plan under `i` is sound then the one under `j` is, with the same rows and no more possible ones.
It is a congruence, so a planner whose rules offer such nodes returns one.
-/
namespace QueryPlan.Cluster

open OutcomeRow Execution

/-- The second node may take the place of the first one. -/
def StandsFor (c : Cluster) (supplied : NodeId → List Row) (i j : NodeId) : Prop :=
  c.arity j = c.arity i ∧ (c.Sound supplied i →
    c.Sound supplied j ∧ (c.meaning supplied j).Refines (c.meaning supplied i))

variable {c : Cluster} {supplied : NodeId → List Row}

theorem StandsFor.refl (i : NodeId) : c.StandsFor supplied i i := ⟨rfl, fun h => ⟨h, .refl _⟩⟩

theorem StandsFor.trans {i j k : NodeId} (h : c.StandsFor supplied i j)
    (h' : c.StandsFor supplied j k) : c.StandsFor supplied i k := by
  refine ⟨h'.1.trans h.1, fun hi => ?_⟩
  obtain ⟨hj, hij⟩ := h.2 hi
  obtain ⟨hk, hjk⟩ := h'.2 hj
  exact ⟨hk, hjk.trans hij⟩

theorem map_arity_eq_of_standsFor {is js : List NodeId}
    (h : List.Forall₂ (c.StandsFor supplied) is js) : is.map c.arity = js.map c.arity := by
  induction h with
  | nil => rfl
  | cons h _ ih => rw [List.map_cons, List.map_cons, h.1, ih]

/-- Nodes that stand for sound ones are sound and refine them. -/
theorem sound_inputs {is js : List NodeId} (h : List.Forall₂ (c.StandsFor supplied) is js)
    (his : ∀ i ∈ is, c.Sound supplied i) :
    (∀ j ∈ js, c.Sound supplied j) ∧
      List.Forall₂ Meaning.Refines (js.map (c.meaning supplied)) (is.map (c.meaning supplied)) := by
  induction h with
  | nil => exact ⟨by simp, .nil⟩
  | cons h _ ih =>
    obtain ⟨hi, his⟩ := List.forall_mem_cons.mp his
    obtain ⟨hj, hrefines⟩ := h.2 hi
    obtain ⟨hjs, hrefiness⟩ := ih his
    exact ⟨List.forall_mem_cons.mpr ⟨hj, hjs⟩, .cons hrefines hrefiness⟩

/-- Both inputs of a join that was copied stand for those of the join. -/
theorem JoinsOver.copied {i j left right : NodeId} {joinType : JoinType}
    (h : c.JoinsOver i left right joinType) (hop : c.operator j = c.operator i)
    (hin : List.Forall₂ (c.StandsFor supplied) (c.inputs i) (c.inputs j)) :
    ∃ left' right', c.JoinsOver j left' right' joinType ∧ c.StandsFor supplied left left' ∧
      c.StandsFor supplied right right' := by
  rw [h.inputs] at hin
  obtain ⟨left', rest, hleft, hrest, hinputs⟩ := List.forall₂_cons_left_iff.mp hin
  obtain ⟨right', rest', hright, hnil, rfl⟩ := List.forall₂_cons_left_iff.mp hrest
  rw [List.forall₂_nil_left_iff.mp hnil] at hinputs
  exact ⟨left', right', ⟨hop ▸ h.operator, hinputs⟩, hleft, hright⟩

theorem empty_of_refines {m m' : Meaning} (h : m.Refines m') (hempty : m'.possible = []) :
    m.possible = [] := by
  apply List.eq_nil_iff_forall_not_mem.mpr
  intro row hrow
  have := h.possible_subset row hrow
  rw [hempty] at this
  cases this

theorem standsFor_congruence (c : Cluster) (supplied : NodeId → List Row) :
    c.Congruence (c.StandsFor supplied) where
  refl := .refl
  trans := .trans
  node {i j} hi hj hop hsub hin := by
    have harities := map_arity_eq_of_standsFor hin
    refine ⟨(arity_congr hi hj hop harities).symm, fun hsound => ?_⟩
    cases hsound with
    | node hinputs hown =>
      obtain ⟨hinputs', hrefines⟩ := sound_inputs hin hinputs
      refine ⟨.node hinputs' ⟨?_, ?_, ?_⟩, ?_⟩
      · rw [hop, ← harities]
        exact hown.regular
      · rw [hop]
        exact Meaning.truthful_of_refines hrefines hown.truthful
      · intro h
        rw [hop, hsub] at h
        cases h
      · rw [meaning_eq, meaning_eq, hop, ← harities]
        rw [Meaning.ofOperator_of_not_subset hsub (supplied j)]
        exact Meaning.ofOperator_refines hrefines
    | @emptyRight _ left right joinType join hpads hright hempty =>
      obtain ⟨left', right', join', -, hstands⟩ := join.copied hop hin
      obtain ⟨hright', hrefines⟩ := hstands.2 hright
      have hempty' := empty_of_refines hrefines hempty
      have hmem : right ∈ c.inputs i := by simp [join.inputs]
      have hnil := (hright.fits (inputs_lt_size hmem)).rows_eq_nil hempty
      refine ⟨.emptyRight join' hpads hright' hempty', ?_⟩
      rw [join.meaning_eq_of_emptyRight hpads hnil hempty,
        join'.meaning_eq_of_emptyRight hpads (hrefines.rows_eq.trans hnil) hempty']
      exact .refl _
    | @emptyLeft _ left right joinType join hpads hleft hempty =>
      obtain ⟨left', right', join', hstands, -⟩ := join.copied hop hin
      obtain ⟨hleft', hrefines⟩ := hstands.2 hleft
      have hempty' := empty_of_refines hrefines hempty
      have hmem : left ∈ c.inputs i := by simp [join.inputs]
      have hnil := (hleft.fits (inputs_lt_size hmem)).rows_eq_nil hempty
      refine ⟨.emptyLeft join' hpads hleft' hempty', ?_⟩
      rw [join.meaning_eq_of_emptyLeft hpads hnil hempty,
        join'.meaning_eq_of_emptyLeft hpads (hrefines.rows_eq.trans hnil) hempty']
      exact .refl _

/-! ## Filters and projections -/

variable {id input : NodeId} {convention : Convention}

section

variable {condition : Expr} (hop : c.operator id = .filter convention condition)
  (hin : c.inputs id = [input])

include hop hin

variable (supplied) in
theorem meaning_filter : c.meaning supplied id =
    ⟨(c.meaning supplied input).rows.filter (condition.holdsOn ·),
      (c.meaning supplied input).possible⟩ := by
  rw [meaning_eq, hop, hin]
  rfl

theorem sound_filter_iff : c.Sound supplied id ↔ c.Sound supplied input ∧
    ∀ row ∈ (c.meaning supplied input).possible, condition.isPredicateOn row = true := by
  have htruthful : Meaning.truthful (c.operator id) ((c.inputs id).map (c.meaning supplied)) = true ↔
      ∀ row ∈ (c.meaning supplied input).possible, condition.isPredicateOn row = true := by
    rw [hop, hin]
    exact List.all_eq_true
  constructor
  · intro h
    obtain ⟨hinputs, hown⟩ := h.cases_of_not_join (by rw [hop]; rfl)
    exact ⟨hinputs input (by simp [hin]), htruthful.mp hown.truthful⟩
  · rintro ⟨hinput, hpredicate⟩
    refine .node (fun j hj => ?_) ⟨?_, htruthful.mpr hpredicate, ?_⟩
    · rw [hin, List.mem_singleton] at hj
      exact hj ▸ hinput
    · rw [hop]
      trivial
    · intro hsub
      rw [hop] at hsub
      cases hsub

end

section

variable {columns : List (Expr × String)} (hop : c.operator id = .project convention columns)
  (hin : c.inputs id = [input])

include hop hin

variable (supplied) in
theorem meaning_project : c.meaning supplied id =
    ⟨(c.meaning supplied input).rows.map (projectOn (columns.map Prod.fst)),
      (c.meaning supplied input).possible.map (projectOn (columns.map Prod.fst))⟩ := by
  rw [meaning_eq, hop, hin]
  rfl

theorem sound_project_iff : c.Sound supplied id ↔ c.Sound supplied input ∧
    ∀ row ∈ (c.meaning supplied input).possible, ∀ e ∈ columns.map Prod.fst,
      e.andsTruthful row = true := by
  have htruthful : Meaning.truthful (c.operator id) ((c.inputs id).map (c.meaning supplied)) = true ↔
      ∀ row ∈ (c.meaning supplied input).possible, ∀ e ∈ columns.map Prod.fst,
        e.andsTruthful row = true := by
    rw [hop, hin]
    simp only [Meaning.truthful, List.all_eq_true, List.forall_mem_map]
    rfl
  constructor
  · intro h
    obtain ⟨hinputs, hown⟩ := h.cases_of_not_join (by rw [hop]; rfl)
    exact ⟨hinputs input (by simp [hin]), htruthful.mp hown.truthful⟩
  · rintro ⟨hinput, hands⟩
    refine .node (fun j hj => ?_) ⟨?_, htruthful.mpr hands, ?_⟩
    · rw [hin, List.mem_singleton] at hj
      exact hj ▸ hinput
    · rw [hop]
      trivial
    · intro hsub
      rw [hop] at hsub
      cases hsub

end

end QueryPlan.Cluster
