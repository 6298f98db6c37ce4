import QueryPlan.Proofs.Session.Extension
import QueryPlan.Rule.Basic
/-!
# What a request makes of a session

`Keeps R` says of a request that the session after it is related by `R` to the session before it,
whether the request succeeds or fails. `Grows` is the case of a session that extends the other one.
Both are closed under the ways in which requests are put together, and creating, copying,
rebuilding, registering and every rule only add nodes.
-/
namespace QueryPlan

namespace Planning

/-- The request adds nodes at most, also when it fails. -/
def Grows {α : Type} (x : Planning α) : Prop := ∀ c : Cluster, c.Extends (x.run.run c).2

variable {α β σ : Type}

theorem Grows.runs {x : Planning α} (hx : x.Grows) {c c' : Cluster} {a : α} (h : x.Runs c a c') :
    c.Extends c' := by
  have := hx c
  rw [show x.run.run c = (.ok a, c') from h] at this
  exact this

theorem grows_pure (a : α) : (pure a : Planning α).Grows := fun c => .refl c

theorem grows_throw (e : PlanError) : (throw e : Planning α).Grows := fun c => .refl c

theorem grows_inspect (f : Cluster → Except PlanError α) : (inspect f).Grows := fun c => .refl c

theorem grows_read (f : Cluster → α) : (read f).Grows := fun c => .refl c

theorem grows_ofOption (o : Option α) : (ofOption o).Grows := by
  cases o with
  | none => exact grows_throw _
  | some a => exact grows_pure a

section

variable {R : Cluster → Cluster → Prop}

/-- The session after the request is related to the one before it, also when the request fails. -/
def Keeps (R : Cluster → Cluster → Prop) (x : Planning α) : Prop := ∀ c, R c (x.leaves c)

/-- A relation of sessions to later ones, in which they may have more nodes. -/
structure Later (R : Cluster → Cluster → Prop) : Prop where
  of_extends : ∀ {c c' : Cluster}, c.Extends c' → R c c'
  trans : ∀ {c₁ c₂ c₃ : Cluster}, R c₁ c₂ → R c₂ c₃ → R c₁ c₃

theorem later_extends : Later Cluster.Extends := ⟨id, .trans⟩

theorem Grows.keeps {x : Planning α} (hx : x.Grows) (hR : Later R) : x.Keeps R := fun c =>
  hR.of_extends (hx c)

theorem Keeps.bind {x : Planning α} {f : α → Planning β} (hx : x.Keeps R) (hR : Later R)
    (hf : ∀ a, (f a).Keeps R) : (x >>= f).Keeps R := by
  intro c
  have hc := hx c
  unfold leaves at hc ⊢
  simp only [ExceptT.run_bind, StateT.run_bind]
  rcases h : x.run.run c with ⟨e | a, c₁⟩
  · rw [h] at hc; exact hc
  · rw [h] at hc; exact hR.trans hc (hf a c₁)

theorem Keeps.lift_run {x : Planning α} (hx : x.Keeps R) (hR : Later R) (s : σ) :
    ((liftM x : StateT σ Planning α).run s).Keeps R :=
  show (x >>= fun a => pure (a, s)).Keeps R from
    hx.bind hR fun _ => Grows.keeps (grows_pure _) hR

/-- For requests with a state of their own, one for each element of a list. -/
theorem keeps_mapM_run (hR : Later R) {f : α → StateT σ Planning β} (as : List α)
    (hf : ∀ a ∈ as, ∀ s, ((f a).run s).Keeps R) (s : σ) : ((as.mapM f).run s).Keeps R := by
  induction as generalizing s with
  | nil => exact Grows.keeps (grows_pure _) hR
  | cons a as ih =>
    rw [List.mapM_cons, StateT.run_bind]
    refine (hf a (by simp) s).bind hR fun ⟨b, s'⟩ => ?_
    rw [StateT.run_bind]
    exact (ih (fun x hx => hf x (by simp [hx])) s').bind hR fun _ => Grows.keeps (grows_pure _) hR

end

theorem Grows.bind {x : Planning α} {f : α → Planning β} (hx : x.Grows)
    (hf : ∀ a, (f a).Grows) : (x >>= f).Grows := Keeps.bind hx later_extends hf

theorem grows_mapM {f : α → Planning β} (as : List α) (hf : ∀ a ∈ as, (f a).Grows) :
    (as.mapM f).Grows := by
  induction as with
  | nil => exact grows_pure []
  | cons a as ih =>
    rw [List.mapM_cons]
    exact (hf a (by simp)).bind fun b =>
      (ih fun x hx => hf x (by simp [hx])).bind fun bs => grows_pure _

/-- Among requests for each element of a list, the one for an element has run between the others. -/
theorem runs_of_mem_mapM {f : α → Planning β} {as : List α} {bs : List β} {c c' : Cluster}
    (hf : ∀ a ∈ as, (f a).Grows) (h : (as.mapM f).Runs c bs c') {a : α} (ha : a ∈ as) :
    ∃ b ∈ bs, ∃ c₁ c₂, c.Extends c₁ ∧ (f a).Runs c₁ b c₂ ∧ c₂.Extends c' := by
  induction as generalizing c bs with
  | nil => cases ha
  | cons first as ih =>
    obtain ⟨b, bs, c₁, hfirst, hrest, rfl⟩ := runs_mapM_cons.mp h
    obtain ⟨hgrows, hothers⟩ := List.forall_mem_cons.mp hf
    rcases List.mem_cons.mp ha with rfl | ha
    · exact ⟨b, List.mem_cons_self, c, c₁, .refl c, hfirst, (grows_mapM as hothers).runs hrest⟩
    · obtain ⟨b', hb', c₂, c₃, hc₂, hrun, hc₃⟩ := ih hothers hrest ha
      exact ⟨b', List.mem_cons_of_mem _ hb', c₂, c₃, (hgrows.runs hfirst).trans hc₂, hrun, hc₃⟩

theorem Grows.lift_run {x : Planning α} (hx : x.Grows) (s : σ) :
    ((liftM x : StateT σ Planning α).run s).Grows := Keeps.lift_run hx later_extends s

/-- `grows_mapM` for requests with a state of their own. -/
theorem grows_mapM_run {f : α → StateT σ Planning β} (as : List α)
    (hf : ∀ a ∈ as, ∀ s, ((f a).run s).Grows) (s : σ) : ((as.mapM f).run s).Grows :=
  keeps_mapM_run later_extends as hf s

end Planning

namespace Cluster

open Planning

theorem grows_create (operator : Operator) (traits : Traits) (inputs : List NodeId) :
    (create operator traits inputs).Grows := by
  intro c
  unfold create ExceptT.mk ExceptT.run StateT.run
  dsimp only
  split
  · next h _ => exact (created_push c h).grows
  · exact .refl c

theorem grows_createDefault (operator : Operator) (inputs : List NodeId) :
    (createDefault operator inputs).Grows := grows_create _ _ _

theorem grows_copy (id : NodeId) (traits : Traits) (inputs : List NodeId) :
    (copy id traits inputs).Grows := by
  refine (grows_read _).bind fun n => ?_
  split
  · exact grows_pure _
  · split
    · exact grows_throw _
    · split
      · exact grows_throw _
      · exact grows_create _ _ _

theorem grows_copyOver (id : NodeId) (inputs : List NodeId) : (copyOver id inputs).Grows :=
  (grows_read _).bind fun _ => grows_copy _ _ _

theorem grows_checkSameType (before after : NodeId) : (checkSameType before after).Grows :=
  grows_inspect _

section

variable {R : Cluster → Cluster → Prop} {replacement : NodeId → Planning (Option NodeId)}

theorem keeps_settle (hR : Later R) (h : ∀ id, (replacement id).Keeps R) (copied : NodeId) :
    (settle replacement copied).Keeps R := by
  refine (h copied).bind hR fun o => ?_
  cases o with
  | none => exact Grows.keeps (grows_pure _) hR
  | some other => exact Grows.keeps ((grows_checkSameType _ _).bind fun _ => grows_pure _) hR

/-- A rebuild copies nodes, and does what its replacement does. -/
theorem keeps_rebuildNode (hR : Later R) (h : ∀ id, (replacement id).Keeps R) (id : NodeId)
    (record : List Rebuilt) : ((rebuildNode replacement id).run record).Keeps R := by
  induction id using Nat.strongRecOn generalizing record with
  | ind id ih =>
    rw [rebuildNode]
    simp only [StateT.run_bind, StateT.run_get, pure_bind]
    split
    · exact Grows.keeps (grows_pure _) hR
    · simp only [StateT.run_bind]
      refine (((grows_read _).keeps hR).lift_run hR _).bind hR fun below => ?_
      refine (keeps_mapM_run hR below.1 (fun j _ s => ih j.1 j.2 s) below.2).bind hR
        fun inputs => ?_
      refine (((grows_copyOver _ _).keeps hR).lift_run hR _).bind hR fun copied => ?_
      refine ((keeps_settle hR h _).lift_run hR _).bind hR fun _ => Grows.keeps ?_ hR
      exact (grows_pure _).bind fun _ => grows_pure _

theorem keeps_rebuild (hR : Later R) (h : ∀ id, (replacement id).Keeps R) (root : NodeId) :
    (rebuild replacement root).Keeps R := by
  unfold rebuild
  exact (keeps_rebuildNode hR h root []).bind hR fun _ => Grows.keeps (grows_pure _) hR

theorem grows_settle (h : ∀ id, (replacement id).Grows) (copied : NodeId) :
    (settle replacement copied).Grows := keeps_settle later_extends h copied

theorem grows_rebuildNode (h : ∀ id, (replacement id).Grows) (id : NodeId) (record : List Rebuilt) :
    ((rebuildNode replacement id).run record).Grows := keeps_rebuildNode later_extends h id record

end

theorem grows_replace (root target replacement : NodeId) :
    (replace root target replacement).Grows := by
  unfold replace
  exact Grows.bind (keeps_rebuild later_extends (fun _ => grows_pure _) root) fun _ => grows_pure _

end Cluster

namespace Rule

open Planning Cluster

theorem grows_keeping (input : NodeId) (conjuncts : List Expr) :
    (Filter.keeping input conjuncts).Grows := by
  unfold Filter.keeping
  split
  · exact grows_createDefault _ _
  · exact grows_pure _

theorem grows_belowProjection (id : NodeId) : (Filter.belowProjection id).Grows := by
  refine (grows_read _).bind fun c => (grows_ofOption _).bind fun project => ?_
  split
  · exact (grows_ofOption _).bind fun _ => (grows_ofOption _).bind fun _ =>
      (grows_createDefault _ _).bind fun _ => (grows_copyOver _ _).bind fun _ => grows_pure _
  · exact grows_pure _

theorem grows_filterMerge (id : NodeId) : (Filter.merge id).Grows := by
  refine (grows_read _).bind fun c => (grows_ofOption _).bind fun bottom => ?_
  split
  · exact (grows_ofOption _).bind fun _ => (grows_createDefault _ _).bind fun _ => grows_pure _
  · exact grows_pure _

theorem grows_intoJoin (id : NodeId) : (Filter.intoJoin id).Grows := by
  refine (grows_read _).bind fun c => (grows_ofOption _).bind fun joined =>
    (grows_ofOption _).bind fun left => (grows_ofOption _).bind fun right => ?_
  split
  · dsimp only
    split
    · exact grows_pure _
    · exact (grows_keeping _ _).bind fun _ => (grows_keeping _ _).bind fun _ =>
        (grows_createDefault _ _).bind fun _ => (grows_keeping _ _).bind fun _ => grows_pure _
  · exact grows_pure _

theorem grows_projectionMerge (id : NodeId) : (Projection.merge id).Grows := by
  refine (grows_read _).bind fun c => (grows_ofOption _).bind fun bottom => ?_
  split
  · refine (grows_mapM _ fun column _ => ?_).bind fun _ =>
      (grows_ofOption _).bind fun _ => (grows_createDefault _ _).bind fun _ => grows_pure _
    exact (grows_ofOption _).bind fun _ => grows_pure _
  · exact grows_pure _

theorem grows_removeIdentity (id : NodeId) : (Projection.removeIdentity id).Grows := by
  refine (grows_read _).bind fun c => (grows_ofOption _).bind fun input => ?_
  split <;> exact grows_pure _

theorem grows_aboveJoin (fromLeft fromRight : Bool) (id : NodeId) :
    (Projection.aboveJoin fromLeft fromRight id).Grows := by
  refine (grows_read _).bind fun c => ?_
  split
  · exact grows_pure _
  · refine (grows_ofOption _).bind fun left => (grows_ofOption _).bind fun right => ?_
    dsimp only
    split
    · exact grows_pure _
    · exact (grows_ofOption _).bind fun _ => (grows_ofOption _).bind fun _ =>
        (grows_ofOption _).bind fun _ => (grows_createDefault _ _).bind fun _ =>
          (grows_createDefault _ _).bind fun _ => grows_pure _

/-- Every rule adds nodes at most. -/
theorem grows_offer (rule : Rule) (id : NodeId) : (rule.offer id).Grows := by
  cases rule with
  | filterProjectTranspose => exact grows_belowProjection id
  | projectMerge => exact grows_projectionMerge id
  | projectRemove => exact grows_removeIdentity id
  | filterMerge => exact grows_filterMerge id
  | filterIntoJoin => exact grows_intoJoin id
  | joinProjectTranspose sides => exact grows_aboveJoin _ _ id

end Rule

end QueryPlan
