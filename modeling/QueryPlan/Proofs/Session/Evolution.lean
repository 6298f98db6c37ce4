import QueryPlan.Proofs.Execution.Stripping
import QueryPlan.Proofs.Planner.Progress
import QueryPlan.Proofs.Planner.Requests
import QueryPlan.Proofs.Session.Building
import QueryPlan.Proofs.View.Substitution
/-!
# What becomes of a session

Whatever is asked of a session, one request after the other and whether they succeed or fail: its
nodes keep their numbers and all that they were created with, subsets get more members at most, and
every node fits the nodes before it. Requests may be composed in any way, also such that one follows
on the failure of another, or is made by the replacements of a rebuild.
-/
namespace QueryPlan

/-! ## Filling subsets -/

namespace Cluster

variable {c c' : Cluster} {id subset member : NodeId} {n : Node}

theorem node_eq_of_getElem? (hn : c.nodes[id]? = some n) : c.node id = n := by
  simp [node, hn]

/-- Members are added to one node, or its best one is chosen. -/
theorem evolves_set {members : List NodeId} {best : Option NodeId} (hn : c.nodes[id]? = some n)
    (hnodes : c'.nodes = c.nodes.setIfInBounds id { n with members, best })
    (hmembers : n.members <+: members) (hbest : n.best.isSome = true → best.isSome = true) :
    c.Evolves c' := by
  have hnode : ∀ j, c'.node j = if j = id then { n with members, best } else c.node j := by
    intro j
    unfold node
    rw [hnodes, Array.getElem?_setIfInBounds]
    by_cases hj : j = id
    · subst hj
      simp [(Array.getElem?_eq_some_iff.mp hn).1]
    · rw [if_neg (Ne.symm hj), if_neg hj]
  -- all else of a node is as it was
  have hframe : ∀ j, c'.node j =
      { c.node j with members := (c'.node j).members, best := (c'.node j).best } := by
    intro j
    rw [hnode]
    split
    · next hj => rw [hj, node_eq_of_getElem? hn]
    · rfl
  exact {
    size_le := by rw [size, size, hnodes, Array.size_setIfInBounds]
    operator_eq := fun j _ => (congrArg Node.operator (hframe j) :)
    traits_eq := fun j _ => (congrArg Node.traits (hframe j) :)
    inputs_eq := fun j _ => (congrArg Node.inputs (hframe j) :)
    rowType_eq := fun j _ => (congrArg Node.rowType (hframe j) :)
    members := fun j _ => by
      rw [hnode]
      split
      · next hj => rwa [hj, node_eq_of_getElem? hn]
      · exact List.prefix_refl _
    best := fun j _ => by
      rw [hnode]
      split
      · next hj => rwa [hj, node_eq_of_getElem? hn]
      · exact fun h => h }

theorem evolves_withMember (h : c.withMember subset member = .ok c') : c.Evolves c' := by
  -- each check that fails ends it; a member that is there already changes nothing
  unfold withMember at h
  split at h
  · cases h
  · next n hn =>
    split at h
    · split at h
      · split at h
        · split at h
          · split at h
            · cases h
              exact .refl c
            · cases h
              exact evolves_set hn rfl (List.prefix_append _ _) fun h => h
          · cases h
        · cases h
      · cases h
    · cases h

theorem evolves_withBest (h : c.withBest subset member = .ok c') : c.Evolves c' := by
  unfold withBest at h
  split at h
  · cases h
  · next n hn =>
    split at h
    · cases h
      exact evolves_set hn rfl (List.prefix_refl _) fun _ => rfl
    · cases h

end Cluster

/-! ## Requests that change nothing when they fail -/

namespace Planning

variable {α β : Type}

/-- What is kept when a change succeeds is kept when it is asked for. -/
theorem keeps_change {R : Cluster → Cluster → Prop} (hR : Later R)
    {f : Cluster → Except PlanError Cluster} (h : ∀ c c', f c = .ok c' → R c c') :
    (change f).Keeps R := by
  intro c
  unfold leaves change ExceptT.mk ExceptT.run StateT.run
  dsimp only
  cases hf : f c with
  | ok c' => exact h c c' hf
  | error e => exact hR.of_extends (.refl c)

theorem Keeps.recover {R : Cluster → Cluster → Prop} {x : Planning α} {f : PlanError → Planning α}
    (hx : x.Keeps R) (hR : Later R) (hf : ∀ e, (f e).Keeps R) : (tryCatch x f).Keeps R := by
  intro c
  have hc := hx c
  -- the failure is answered in the session that it leaves, not in the one before
  have hrun : (tryCatch x f).leaves c =
      match x.run.run c with
      | (.ok _, c') => c'
      | (.error e, c') => (f e).leaves c' := by
    show ((ExceptT.tryCatch x f).run.run c).2 = _
    unfold ExceptT.tryCatch ExceptT.run ExceptT.mk
    simp only [StateT.run_bind]
    rcases StateT.run x c with ⟨e | a, c'⟩ <;> rfl
  unfold leaves at hc
  rw [hrun]
  rcases h : x.run.run c with ⟨e | a, c'⟩
  · rw [h] at hc
    exact hR.trans hc (hf e c')
  · rw [h] at hc
    exact hc

end Planning

namespace Cluster

open Planning

end Cluster

/-! ## Composed requests -/

namespace Registering

/-- The request to a registry that has been used before, with the registry afterwards. -/
def resume {α : Type} (request : Registering α) (registry : Registry) :
    Planning (Except PlanError α × Registry) :=
  ExceptT.mk fun c =>
    match (request.run.run registry).run c with
    | (outcome, c') => (.ok outcome, c')

theorem Grows.resume {α : Type} {request : Registering α} (h : request.Grows)
    (registry : Registry) : (request.resume registry).Grows := fun c => h registry c

end Registering

theorem Planner.Request.grows (request : Planner.Request) (planner : Planner) :
    (request.perform planner).Grows := by
  cases request with
  | register id =>
    exact (Registry.grows_ensureRegistered id).bind fun _ => Registering.grows_pure _
  | setRoot id =>
    exact (Registry.grows_ensureRegistered id).bind fun _ => Registering.grows_pure _
  | findBest => exact planner.grows_findBest

namespace Cluster

open Planning

theorem grows_stripSubsets (root : NodeId) : (stripSubsets root).Grows := by
  refine (grows_read _).bind fun size => ?_
  rw [StateT.run'_eq, ← bind_pure_comp]
  exact (grows_stripNode _ _ _).bind fun _ => grows_pure _

theorem grows_useViews (query : NodeId) (views : List Materialization) :
    (useViews query views).Grows := by
  refine (grows_read _).bind fun c => ?_
  split
  · exact grows_pure _
  · exact (grows_useEach _ _ _).bind fun _ => grows_pure _

theorem grows_useLatticesIn (root : NodeId) (lattices : List (Lattice × Nat)) :
    (useLatticesIn root lattices).Grows := by
  induction lattices with
  | nil => exact grows_pure _
  | cons first rest ih =>
    refine (first.1.grows_useStar root).bind fun found => ?_
    cases found with
    | none => exact ih
    | some plan => exact ih.bind fun _ => grows_pure _

theorem grows_useLattices (query : NodeId) (lattices : List Lattice) :
    (useLattices query lattices).Grows := by
  refine (grows_read _).bind fun c => ?_
  split
  · exact grows_pure _
  · dsimp only
    split
    · exact grows_pure _
    · exact (grows_optimize _ _).bind fun _ => grows_useLatticesIn _ _

/-- Requests that are composed of the operations on a session. Between them the session may be read,
and the failure of one may be answered by another. A builder goes on from any stack, a planner from
any registry, and what a rebuild is offered may be composed itself. -/
inductive Composed : {α : Type} → Planning α → Prop
  | inspect {α : Type} (f : Cluster → Except PlanError α) : Composed (Planning.inspect f)
  | bind {α β : Type} {x : Planning α} {f : α → Planning β} (first : Composed x)
      (next : ∀ a, Composed (f a)) : Composed (x >>= f)
  | recover {α : Type} {x : Planning α} {f : PlanError → Planning α} (first : Composed x)
      (next : ∀ e, Composed (f e)) : Composed (tryCatch x f)
  | create (operator : Operator) (traits : Traits) (inputs : List NodeId) :
      Composed (create operator traits inputs)
  | createSubset (rowType : RowType) (traits : Traits) : Composed (createSubset rowType traits)
  | copy (id : NodeId) (traits : Traits) (inputs : List NodeId) : Composed (copy id traits inputs)
  | addMember (subset member : NodeId) : Composed (addMember subset member)
  | setBest (subset member : NodeId) : Composed (setBest subset member)
  | building {α : Type} {step : Building α} (offered : step.Offered) (stack : List NodeId) :
      Composed (step.run stack)
  | planning (planner : Planner) (registry : Registry) (request : Planner.Request) :
      Composed ((request.perform planner).resume registry)
  | optimize (program : Program) (id : NodeId) : Composed (optimize program id)
  | rebuild {replacement : NodeId → Planning (Option NodeId)}
      (offers : ∀ id, Composed (replacement id)) (root : NodeId) :
      Composed (rebuild replacement root)
  | replace (root target replacement : NodeId) : Composed (replace root target replacement)
  | stripSubsets (root : NodeId) : Composed (stripSubsets root)
  | unifyAll (target query replacement : NodeId) : Composed (unifyAll target query replacement)
  | substitute (query : NodeId) (view : Materialization) : Composed (substitute query view)
  | useViews (query : NodeId) (views : List Materialization) : Composed (useViews query views)
  | useStar (lattice : Lattice) (id : NodeId) : Composed (lattice.useStar id)
  | useLattices (query : NodeId) (lattices : List Lattice) : Composed (useLattices query lattices)

theorem later_evolves : Later Evolves := ⟨Extends.evolves, Evolves.trans⟩

/-- Under a composed request a session evolves: only members are added, and best ones chosen. -/
theorem Composed.keeps {α : Type} {x : Planning α} (h : Composed x) : x.Keeps Evolves := by
  have hR := later_evolves
  induction h with
  | inspect f => exact (grows_inspect f).keeps hR
  | bind _ _ ihfirst ihnext => exact ihfirst.bind hR ihnext
  | recover _ _ ihfirst ihnext => exact ihfirst.recover hR ihnext
  | create operator traits inputs => exact (grows_create operator traits inputs).keeps hR
  | createSubset rowType traits => exact (grows_create _ traits []).keeps hR
  | copy id traits inputs => exact (grows_copy id traits inputs).keeps hR
  | addMember subset member => exact keeps_change hR fun _ _ => evolves_withMember
  | setBest subset member => exact keeps_change hR fun _ _ => evolves_withBest
  | building offered stack => exact (offered.grows stack).keeps hR
  | planning planner registry request => exact ((request.grows planner).resume registry).keeps hR
  | optimize program id => exact (grows_optimize program id).keeps hR
  | rebuild _ root ih => exact keeps_rebuild hR ih root
  | replace root target replacement => exact (grows_replace root target replacement).keeps hR
  | stripSubsets root => exact (grows_stripSubsets root).keeps hR
  | unifyAll target query replacement => exact (grows_unifyAll target query replacement).keeps hR
  | substitute query view => exact (grows_substitute query view).keeps hR
  | useViews query views => exact (grows_useViews query views).keeps hR
  | useStar lattice id => exact (lattice.grows_useStar id).keeps hR
  | useLattices query lattices => exact (grows_useLattices query lattices).keeps hR

theorem fits {c : Cluster} {id : NodeId} (h : id < c.size) : Arena.Fits c.nodes id (c.node id) :=
  c.wellFormed id _ (getElem?_eq_some_node h)

end Cluster

end QueryPlan
