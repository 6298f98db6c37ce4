import QueryPlan.Proofs.Execution.Proper
import QueryPlan.Proofs.Planner.Iteration
import QueryPlan.Proofs.Rule.Adjacent
import QueryPlan.View.Use
/-!
# Normal forms add no errors

The rules that bring a query and a defining query to one form only move filters below projections and
merge or drop projections. Each offers a node that takes the place of the one it was tried on, so a
normal form of a proper plan is a proper plan with the same rows.
-/
namespace QueryPlan

open OutcomeRow Execution

/-! ## Expressions turned through a projection -/

namespace Expr

variable {projected : List Expr} {e e' : Expr} {row : Row}

theorem holdsOn_eq_of_eval_eq {row' : Row} (h : e'.eval row = e.eval row') :
    e'.holdsOn (ofRow row) = e.holdsOn (ofRow row') := by
  rw [holdsOn, holdsOn, evalOn_ofRow, evalOn_ofRow, h]

theorem hasValue_merged {upper lower merged : List (Expr × String)}
    (h : Rule.MergedColumns upper lower merged)
    (hlower : ∀ e ∈ lower.map Prod.fst, e.HasValue row)
    (hupper : ∀ e ∈ upper.map Prod.fst, e.HasValue (projectedRow (lower.map Prod.fst) row)) :
    ∀ e ∈ merged.map Prod.fst, e.HasValue row := by
  induction h with
  | nil => simp
  | cons hcolumn _ ih =>
    rw [List.map_cons, List.forall_mem_cons] at hupper ⊢
    refine ⟨?_, ih hupper.2⟩
    obtain ⟨v, hv⟩ := hupper.1
    exact ⟨v, (Execution.eval_throughProjection hcolumn.1 hlower).trans hv⟩

end Expr

namespace Cluster

variable {c : Cluster} {lacks : DataType} {id offered : NodeId}

/-! ## Rules -/

/-- A filter over a projection may be the projection over the filter. -/
theorem takesPlace_belowProjection {v v' v'' : Convention} {condition condition' : Expr}
    {columns : List (Expr × String)} {project input filter : NodeId}
    (hid : c.IsNode id (.filter v condition) [project])
    (hproject : c.IsNode project (.project v' columns) [input])
    (hthrough : condition.throughProjection? (columns.map Prod.fst) = some condition')
    (hfilter : c.IsNode filter (.filter v'' condition') [input])
    (hoffered : c.IsNode offered (.project v' columns) [filter]) :
    c.TakesPlace lacks id offered := by
  constructor
  · rw [hoffered.arity_project, hid.arity_filter, hproject.arity_project]
  · intro hproper
    obtain ⟨hprojected, hcondition, hlacks, hrows⟩ := hproper.of_filter hid
    obtain ⟨hinput, hexprs, hlacks', hrows'⟩ := hprojected.of_project hproject
    rw [hrows', List.forall_mem_map] at hcondition
    have heval : ∀ row ∈ c.ranRows input,
        condition'.eval row = condition.eval (projectedRow (columns.map Prod.fst) row) :=
      fun row hrow => Execution.eval_throughProjection hthrough fun e he => (hexprs row hrow e he).2
    have hpredicate : ∀ row ∈ c.ranRows input, condition'.isPredicateOn (ofRow row) = true ∧
        condition'.HasValue row := by
      intro row hrow
      obtain ⟨htruth, v, hv⟩ := hcondition row hrow
      refine ⟨?_, v, (heval row hrow).trans hv⟩
      rw [ofRow_projectedRow fun e he => (hexprs row hrow e he).2] at htruth
      exact Expr.isPredicateOn_throughProjection hthrough
        (fun e he => (hexprs row hrow e he).1) htruth
    obtain ⟨hfiltered, hkept⟩ := proper_filter hfilter hinput hpredicate
      (Expr.lacks_throughProjection hthrough hlacks' hlacks)
    have hsubset : ∀ row ∈ c.ranRows filter, row ∈ c.ranRows input := by
      rw [hkept]
      exact fun row hrow => List.mem_of_mem_filter hrow
    obtain ⟨hresult, hresultRows⟩ := proper_project hoffered hfiltered
      (fun row hrow => hexprs row (hsubset row hrow)) hlacks'
    refine ⟨hresult, ?_⟩
    rw [hresultRows, hrows, hrows', hkept, List.filter_map]
    congr 1
    exact List.filter_congr fun row hrow => Expr.holdsOn_eq_of_eval_eq (heval row hrow)

/-- Two projections may be one on the columns turned through the lower one. -/
theorem takesPlace_projectionMerge {v v' v'' : Convention}
    {upper lower merged : List (Expr × String)} {bottom input : NodeId}
    (hid : c.IsNode id (.project v upper) [bottom])
    (hbottom : c.IsNode bottom (.project v' lower) [input])
    (hmerged : Rule.MergedColumns upper lower merged)
    (hoffered : c.IsNode offered (.project v'' merged) [input]) :
    c.TakesPlace lacks id offered := by
  constructor
  · rw [hoffered.arity_project, hid.arity_project, hmerged.length_eq]
  · intro hproper
    obtain ⟨hlower, hupperExprs, hlacks, hrows⟩ := hproper.of_project hid
    obtain ⟨hinput, hlowerExprs, hlacks', hrows'⟩ := hlower.of_project hbottom
    rw [hrows', List.forall_mem_map] at hupperExprs
    have hexprs : ∀ row ∈ c.ranRows input, ∀ e ∈ merged.map Prod.fst,
        e.andsTruthful (ofRow row) = true ∧ e.HasValue row := by
      intro row hrow e he
      have hvalues : ∀ e ∈ lower.map Prod.fst, e.HasValue row :=
        fun e he => (hlowerExprs row hrow e he).2
      refine ⟨andsTruthful_merged hmerged (fun e he => (hlowerExprs row hrow e he).1) ?_ e he,
        Expr.hasValue_merged hmerged hvalues (fun e he => (hupperExprs row hrow e he).2) e he⟩
      rw [← ofRow_projectedRow hvalues]
      exact fun e he => (hupperExprs row hrow e he).1
    have hlacksMerged : ∀ e ∈ merged.map Prod.fst, e.Lacks lacks := by
      clear hexprs hrows hupperExprs hoffered hid
      induction hmerged with
      | nil => simp
      | cons hcolumn _ ih =>
        rw [List.map_cons, List.forall_mem_cons] at hlacks ⊢
        exact ⟨Expr.lacks_throughProjection hcolumn.1 hlacks' hlacks.1, ih hlacks.2⟩
    obtain ⟨hresult, hresultRows⟩ := proper_project hoffered hinput hexprs hlacksMerged
    refine ⟨hresult, ?_⟩
    rw [hresultRows, hrows, hrows', List.map_map]
    refine List.map_congr_left fun row hrow => ofRow_injective ?_
    have hvalues := fun e he => (hlowerExprs row hrow e he).2
    rw [ofRow_projectedRow fun e he => (hexprs row hrow e he).2, projectOn_merged hmerged,
      Function.comp_apply, ofRow_projectedRow fun e he => (hupperExprs row hrow e he).2,
      ofRow_projectedRow hvalues]

/-- A projection on all columns of its input in order may be left out, since rows are as wide as the
row type says. -/
theorem takesPlace_removeIdentity {v : Convention} {columns : List (Expr × String)}
    (hid : c.IsNode id (.project v columns) [offered])
    (hidentity : Expr.areIdentity (columns.map Prod.fst) (c.arity offered) = true) :
    c.TakesPlace lacks id offered := by
  constructor
  · rw [hid.arity_project]
    simpa using (Expr.length_of_areIdentity hidentity).symm
  · intro hproper
    obtain ⟨hoffered, hexprs, -, hrows⟩ := hproper.of_project hid
    refine ⟨hoffered, ?_⟩
    have hsame : ∀ row ∈ c.ranRows offered, projectedRow (columns.map Prod.fst) row = row := by
      intro row hrow
      have hwidth := (hoffered.under offered .root).width row hrow
      exact projectedRow_identity (by rw [hwidth]; exact hidentity)
        fun e he => (hexprs row hrow e he).2
    rw [hrows, List.map_congr_left hsame, List.map_id']

end Cluster

namespace Planner

open Cluster

variable {C : Cluster}

/-- Every rule of the normal form offers nodes that take the place of the ones they are offered
for. -/
theorem offersRelated_normalize (lacks : DataType) :
    ∀ rule ∈ Rule.normalize, OffersRelated (C.TakesPlace lacks) C rule := by
  intro rule hrule id offered c c' hid _ haccepts h hC
  obtain ⟨hlt, h⟩ := rule.offered_of_runs hid haccepts h hC
  refine ⟨hlt, ?_⟩
  cases h with
  | filterProjectTranspose hnode hproject hthrough hfilter hoffered =>
    exact takesPlace_belowProjection hnode hproject hthrough hfilter hoffered
  | projectMerge hnode hbottom hmerged hoffered =>
    exact takesPlace_projectionMerge hnode hbottom hmerged hoffered
  | projectRemove hnode hidentity => exact takesPlace_removeIdentity hnode hidentity
  | _ => simp [Rule.normalize] at hrule

end Planner

namespace Cluster

/-! ## A pair of plans -/

variable {c c' C : Cluster} {definition query definition' query' : NodeId}

theorem grows_normalizePair (definition query : NodeId) : (normalizePair definition query).Grows := by
  refine (Planning.grows_read _).bind fun config => Planning.grows_registering ?_
  exact (Planner.grows_optimize _ _).bind fun _ =>
    (Planner.grows_optimize _ _).bind fun _ => Registering.grows_pure _

/-- Normal forms of two plans are related to them if the rules offer related nodes. -/
theorem normalizePair_related {E : NodeId → NodeId → Prop} (hE : C.Congruence E)
    (hdigest : C.DigestsIdentify)
    (hrules : ∀ rule ∈ Rule.normalize, Planner.OffersRelated E C rule)
    (hdefinition : definition < c.size) (hquery : query < c.size)
    (h : (normalizePair definition query).Runs c (definition', query') c') (hC : c'.Extends C) :
    (definition' < c'.size ∧ E definition definition') ∧ (query' < c'.size ∧ E query query') := by
  unfold normalizePair at h
  rw [Planning.runs_bind] at h
  obtain ⟨config, c₁, hconfig, h⟩ := h
  obtain ⟨rfl, rfl⟩ := Planning.runs_read.mp hconfig
  obtain ⟨r, hrun⟩ := Planning.runs_registering.mp h
  simp only [Registering.runs_bind, Registering.runs_pure] at hrun
  obtain ⟨d, r₁, c₁, hd, q, r₂, c₂, hq, heq, rfl, rfl⟩ := hrun
  cases heq
  have hgrow₁ := (Planner.grows_optimize _ definition).runs hd
  have hgrow₂ := (Planner.grows_optimize _ query).runs hq
  have hreg := Planner.optimize_registered hE hdigest _ hrules (Registry.Sound.empty c) hdefinition
    hd (hgrow₂.trans hC)
  have hreg' := Planner.optimize_registered hE hdigest _ hrules hreg.sound (hgrow₁.lt_size hquery)
    hq hC
  exact ⟨⟨hgrow₂.lt_size hreg.lt_size, hreg.related⟩, hreg'.lt_size, hreg'.related⟩

/-! ## Aggregates stay below -/

/-- An aggregate, or one under projections alone. -/
inductive TopsAggregate (c : Cluster) : NodeId → Prop
  | aggregate {id : NodeId} (own : (c.operator id).aggregate?.isSome = true) : TopsAggregate c id
  | project {id input : NodeId} {v : Convention} {columns : List (Expr × String)}
      (node : c.IsNode id (.project v columns) [input]) (below : TopsAggregate c input) :
      TopsAggregate c id

theorem topsAggregate_project_iff {id input : NodeId} {v : Convention}
    {columns : List (Expr × String)} (hnode : c.IsNode id (.project v columns) [input]) :
    c.TopsAggregate id ↔ c.TopsAggregate input := by
  constructor
  · intro h
    cases h with
    | aggregate own =>
      rw [hnode.operator_eq] at own
      cases own
    | project node below =>
      have hinputs := node.inputs_eq.symm.trans hnode.inputs_eq
      cases hinputs
      exact below
  · exact .project hnode

theorem not_topsAggregate {id : NodeId} (haggregate : (c.operator id).aggregate? = none)
    (hproject : (c.operator id).projection? = none) : ¬c.TopsAggregate id := by
  intro h
  cases h with
  | aggregate own =>
    rw [haggregate] at own
    cases own
  | project node _ =>
    rw [node.operator_eq] at hproject
    cases hproject

theorem topsAggregate_congruence (c : Cluster) :
    c.Congruence fun i j => c.TopsAggregate j → c.TopsAggregate i where
  refl _ h := h
  trans h h' hk := h (h' hk)
  node {i j} hi hj hop _ hin hj' := by
    cases hj' with
    | aggregate own => exact .aggregate (by rw [← hop]; exact own)
    | @project _ input v columns node below =>
      rw [node.inputs_eq] at hin
      obtain ⟨input', _, hrel, hnil, hinputs⟩ := List.forall₂_cons_right_iff.mp hin
      rw [List.forall₂_nil_right_iff.mp hnil] at hinputs
      exact .project ⟨hi, hop.symm.trans node.operator_eq, hinputs⟩ (hrel below)

/-- A normal form is an aggregate only if the plan was one under projections. -/
theorem normalizePair_not_aggregate (hdigest : C.DigestsIdentify) (hdefinition : definition < c.size)
    (hquery : query < c.size) (htop : ¬C.TopsAggregate definition)
    (h : (normalizePair definition query).Runs c (definition', query') c') (hC : c'.Extends C) :
    (c'.operator definition').aggregate? = none := by
  have hrules : ∀ rule ∈ Rule.normalize, Planner.OffersRelated
      (fun i j => C.TopsAggregate j → C.TopsAggregate i) C rule := by
    intro rule hrule id offered c c' hid _ haccepts h hC
    obtain ⟨hlt, h⟩ := rule.offered_of_runs hid haccepts h hC
    refine ⟨hlt, fun hagg => ?_⟩
    cases h with
    | filterProjectTranspose _ _ _ hfilter hoffered =>
      rw [topsAggregate_project_iff hoffered] at hagg
      have hop := hfilter.operator_eq
      exact absurd hagg (not_topsAggregate (by rw [hop]; rfl) (by rw [hop]; rfl))
    | projectMerge hnode hbottom _ hoffered =>
      rw [topsAggregate_project_iff hoffered] at hagg
      exact .project hnode (.project hbottom hagg)
    | projectRemove hnode _ => exact .project hnode hagg
    | _ => simp [Rule.normalize] at hrule
  obtain ⟨⟨hlt, hrel⟩, -⟩ := normalizePair_related (topsAggregate_congruence C) hdigest hrules
    hdefinition hquery h hC
  by_contra hne
  refine htop (hrel (.aggregate ?_))
  rw [hC.operator_eq hlt]
  exact Option.isSome_iff_ne_none.mpr hne

end Cluster

end QueryPlan
