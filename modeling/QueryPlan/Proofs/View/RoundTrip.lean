import QueryPlan.Proofs.Planner.HashConsing
import QueryPlan.Proofs.Session.Replacement
import QueryPlan.Proofs.View.Substitution
/-!
# A view is found wherever its query occurs

Defining query and query are brought to normal form with one registry, which is hash-consed through both
runs. So a part of the query that has the structure of the defining query is the same node, which the search
for the view comes upon.
-/
namespace QueryPlan

open Registering Registry

namespace Unification

/-- A node is computed from itself without anything left over. -/
theorem of_self (c : Cluster) (id : NodeId) : (of c id id).run = .ok (some (.filter [])) := by
  have hresidual : residual? c id id = some [] := if_pos rfl
  unfold of
  rw [if_pos (.inl rfl), hresidual]
  rfl

theorem runs_build_self {replacement built : NodeId} {c c' : Cluster}
    (h : ((Unification.filter []).build replacement).Runs c built c') : built = replacement ∧ c = c' := by
  obtain ⟨rfl, rfl⟩ := Planning.runs_pure.mp h
  exact ⟨rfl, rfl⟩

end Unification

namespace Cluster

variable {c c' : Cluster} {definition query table : NodeId}

/-- The normal forms of two plans are registered in one registry. -/
theorem normalizePair_registered {definition' query' : NodeId} (hdefinition : definition < c.size)
    (hquery : query < c.size) (h : (normalizePair definition query).Runs c (definition', query') c') :
    ∃ r : Registry, r.HashConses c' ∧ r.Represents definition' ∧ r.Represents query' := by
  unfold normalizePair at h
  simp only [Planning.runs_bind, Planning.runs_read] at h
  obtain ⟨config, _, ⟨rfl, rfl⟩, h⟩ := h
  obtain ⟨r, hrun⟩ := Planning.runs_registering.mp h
  simp only [runs_bind, runs_pure, Prod.mk.injEq] at hrun
  obtain ⟨_, r₁, c₁, hfirst, _, r₂, c₂, hsecond, ⟨rfl, rfl⟩, rfl, rfl⟩ := hrun
  obtain ⟨hgrown₁, hregistered₁⟩ := (Planner.conses_optimize _ hdefinition).runs (.empty c) hfirst
  obtain ⟨hgrown₂, hregistered₂⟩ :=
    (Planner.conses_optimize _ (hgrown₁.session.lt_size hquery)).runs hgrown₁.hashConses hsecond
  exact ⟨r₂, hgrown₂.hashConses, hgrown₂.registry.represents hregistered₁, hregistered₂⟩

/-- What a registered node reads is registered. -/
theorem represents_of_inPlan {r : Registry} {root id : NodeId} (hr : r.HashConses c)
    (hroot : r.Represents root) (h : c.InPlan root id) : r.Represents id := by
  induction h with
  | root => exact hroot
  | input _ hj ih => exact hr.closed ih _ hj

/-- A target that is part of a query is replaced by what stands for it. -/
theorem unifyAll_replaced {plans : List NodeId} (hquery : query < c.size) (htable : table < c.size)
    (hpart : c.InPlan query definition) (h : (unifyAll definition query table).Runs c plans c') :
    ∃ plan ∈ plans, c'.Replaced (· = definition) table query plan := by
  simp only [unifyAll, Planning.runs_bind, Planning.runs_inspect, Planning.runs_read,
    Planning.runs_pure] at h
  obtain ⟨u, _, ⟨-, rfl⟩, nodes, _, ⟨rfl, rfl⟩, found, c₁, hfound, rfl, rfl⟩ := h
  have hmem := (mem_breadthFirst_iff hquery).mpr hpart
  obtain ⟨o, ho, c₂, c₃, hc₂, hrun, hc₃⟩ :=
    Planning.runs_of_mem_mapM (fun _ _ => grows_unifyAt _ _ _ _) hfound hmem
  simp only [unifyAt, Planning.runs_bind, Planning.runs_inspect] at hrun
  obtain ⟨unified, _, ⟨hunified, rfl⟩, hrun⟩ := hrun
  rw [Unification.of_self] at hunified
  cases hunified
  simp only [Planning.runs_bind, Planning.runs_pure] at hrun
  obtain ⟨built, _, hbuild, plan, _, hreplace, rfl, rfl⟩ := hrun
  obtain ⟨rfl, rfl⟩ := Unification.runs_build_self hbuild
  refine ⟨plan, List.mem_filterMap.mpr ⟨some plan, ho, rfl⟩, ?_⟩
  exact replace_replaced (hc₂.lt_size hquery) (hc₂.lt_size (hpart.lt_size hquery)) (hc₂.lt_size htable)
    hreplace hc₃

/-- If the normal form of the defining query occurs in that of the query, then one of the plans is the
query's with the view's table in place of every part of that structure. -/
theorem substitute_roundTrip {view : Materialization} {plans : List NodeId} (hview : view.lattice = none)
    (hquery : query < c.size) (hdefinition : view.query < c.size) (htable : view.table < c.size)
    (h : (substitute query view).Runs c plans c') :
    ∃ definition query' c₁, (normalizePair view.query query).Runs c (definition, query') c₁ ∧
      c₁.Extends c' ∧ ∀ part, c₁.InPlan query' part → c₁.SameStructure part definition →
        ∃ plan ∈ plans, c'.Replaced (c'.SameStructure · definition) view.table query' plan := by
  unfold substitute overStar at h
  rw [hview] at h
  simp only [Planning.runs_bind, Planning.runs_pure] at h
  obtain ⟨_, _, ⟨rfl, rfl⟩, ⟨definition, query'⟩, c₁, hnormal, hunify⟩ := h
  have hgrow₁ := (grows_normalizePair view.query query).runs hnormal
  have hgrow₂ := (grows_unifyAll definition query' view.table).runs hunify
  refine ⟨definition, query', c₁, hnormal, hgrow₂, fun part hpart hsame => ?_⟩
  obtain ⟨r, hr, hdefinition', hquery'⟩ := normalizePair_registered hdefinition hquery hnormal
  have hlt := hr.lt_size hquery'
  -- the part is the normal form itself
  obtain rfl := hr.eq_of_sameStructure (represents_of_inPlan hr hquery' hpart) hdefinition' hsame
  obtain ⟨plan, hplan, hreplaced⟩ := unifyAll_replaced hlt (hgrow₁.lt_size htable) hpart hunify
  refine ⟨plan, hplan, hreplaced.congr_hit fun k hk => ?_⟩
  constructor
  · rintro rfl
    exact hsame.mono hgrow₂ (hpart.lt_size hlt) (hpart.lt_size hlt)
  · intro hsame'
    have hr' := hr.mono hgrow₂
    exact hr'.eq_of_sameStructure (represents_of_inPlan hr' hquery' hk) hdefinition' hsame'

/-! ## A view that is used twice -/

/-- Later employees beside the table that holds them, and a query that joins them with themselves, by two
filters that are written alike. -/
def laterTwice : Planning NodeId := do
  let later := Expr.call .greaterThan [.column 0 .bigint, .literal (.integer 100)]
  let emps ← createDefault (.scan .none staff) []
  let left ← createDefault (.filter .none later) [emps]
  let _ ← createDefault (.scan .none laterStaff) []
  let right ← createDefault (.filter .none later) [emps]
  createDefault (.join .logical .inner (.call .equals [.column 1 .bigint, .column 3 .bigint])) [left, right]

def laterSession : Cluster := laterTwice.leaves (start ⟨[staff, laterStaff]⟩ default default)

def laterNormal : Cluster := (normalizePair 1 4).leaves laterSession

def laterUsed : Cluster := (substitute 4 laterView).leaves laterSession

/-- Both uses of the defining query are replaced in the plan that is found. -/
theorem substitute_roundTrip_laterTwice :
    (substitute 4 laterView).Runs laterSession [6] laterUsed ∧
    laterUsed.Replaced (laterUsed.SameStructure · 1) 2 5 6 ∧
    laterUsed.inputs 5 = [1, 1] ∧ laterUsed.inputs 6 = [2, 2] := by
  have hused : ((substitute 4 laterView).run.run laterSession).1.toOption = some [6] ∧
      laterUsed.inputs 5 = [1, 1] ∧ laterUsed.inputs 6 = [2, 2] := by decide +kernel
  have hnormal : ((normalizePair 1 4).run.run laterSession).1.toOption = some (1, 5) ∧
      1 ∈ laterNormal.inputs 5 := by decide +kernel
  have hruns : (substitute 4 laterView).Runs laterSession [6] laterUsed := Planning.runs_leaves hused.1
  have hnormalizes : (normalizePair 1 4).Runs laterSession (1, 5) laterNormal :=
    Planning.runs_leaves hnormal.1
  obtain ⟨definition, query', c₁, hnormalizes', -, hfound⟩ :=
    substitute_roundTrip rfl (by decide +kernel) (by decide +kernel) (by decide +kernel) hruns
  obtain ⟨heq, rfl⟩ := hnormalizes.unique hnormalizes'
  cases heq
  have hview : laterSession.SameStructure 1 1 := sameStructure_of_looksLike 2 (by decide +kernel)
  have hsame := hview.mono ((grows_normalizePair 1 4).runs hnormalizes) (by decide +kernel)
    (by decide +kernel)
  obtain ⟨plan, hplan, hreplaced⟩ := hfound 1 (.input .root hnormal.2) hsame
  obtain rfl := List.mem_singleton.mp hplan
  exact ⟨hruns, hreplaced, hused.2⟩

end Cluster

end QueryPlan
