import QueryPlan.Planner.Registry
/-!
# Successful runs of requests

`Planning.Runs x c a c'` says that a request succeeds in session `c` with answer `a` and leaves the
session `c'`. The lemmas take a run apart along the request: one equivalence for each way in which
requests are put together, so that a whole request is opened by rewriting.
-/
namespace QueryPlan

namespace Planning

/-- The request succeeds with that answer and leaves that session. -/
def Runs {α : Type} (x : Planning α) (c : Cluster) (a : α) (c' : Cluster) : Prop :=
  x.run.run c = (.ok a, c')

variable {α β σ : Type} {c c' : Cluster}

theorem runs_of_toOption {x : Planning α} {a : α} (h : (x.run.run c).1.toOption = some a) :
    x.Runs c a (x.run.run c).2 := by
  unfold Runs
  rcases hrun : x.run.run c with ⟨e | b, c'⟩
  · rw [hrun] at h
    cases h
  · rw [hrun] at h
    cases h
    rfl

/-- The session after a request, whether it succeeds or fails. -/
def leaves (x : Planning α) (c : Cluster) : Cluster := (x.run.run c).2

theorem runs_leaves {x : Planning α} {a : α} (h : (x.run.run c).1.toOption = some a) :
    x.Runs c a (x.leaves c) :=
  runs_of_toOption h

@[simp] theorem runs_pure {a b : α} : (pure a : Planning α).Runs c b c' ↔ a = b ∧ c = c' := by
  simp only [Runs, ExceptT.run_pure]
  exact ⟨fun h => by cases h; exact ⟨rfl, rfl⟩, fun ⟨h, h'⟩ => by rw [h, h']; rfl⟩

@[simp] theorem runs_bind {x : Planning α} {f : α → Planning β} {b : β} :
    (x >>= f).Runs c b c' ↔ ∃ a c₁, x.Runs c a c₁ ∧ (f a).Runs c₁ b c' := by
  simp only [Runs, ExceptT.run_bind, StateT.run_bind]
  rcases h : x.run.run c with ⟨_ | a, c₁⟩
  · constructor
    · intro h'; cases h'
    · rintro ⟨a, c₂, h', -⟩; cases h'
  · constructor
    · intro h'; exact ⟨a, c₁, rfl, h'⟩
    · rintro ⟨a', c₂, h', h''⟩; cases h'; exact h''

@[simp] theorem runs_map {x : Planning α} {f : α → β} {b : β} :
    (f <$> x).Runs c b c' ↔ ∃ a, x.Runs c a c' ∧ f a = b := by
  rw [← bind_pure_comp, runs_bind]
  constructor
  · rintro ⟨a, c₁, h, h'⟩
    obtain ⟨rfl, rfl⟩ := runs_pure.mp h'
    exact ⟨a, h, rfl⟩
  · rintro ⟨a, h, rfl⟩
    exact ⟨a, c', h, runs_pure.mpr ⟨rfl, rfl⟩⟩

@[simp] theorem runs_throw {e : PlanError} {a : α} : ¬(throw e : Planning α).Runs c a c' := by
  intro h; cases h

@[simp] theorem runs_inspect {f : Cluster → Except PlanError α} {a : α} :
    (inspect f).Runs c a c' ↔ f c = .ok a ∧ c = c' := by
  show (f c, c) = (.ok a, c') ↔ _
  rw [Prod.mk.injEq]

@[simp] theorem runs_read {f : Cluster → α} {a : α} :
    (read f).Runs c a c' ↔ f c = a ∧ c = c' := by
  simp [read]

@[simp] theorem runs_ofOption {o : Option α} {a : α} :
    (ofOption o).Runs c a c' ↔ o = some a ∧ c = c' := by
  cases o <;> simp [ofOption]

/-- A request to the session alone, within one that has a state of its own. -/
@[simp] theorem runs_lift_run {x : Planning α} {s : σ} {p : α × σ} :
    ((liftM x : StateT σ Planning α).run s).Runs c p c' ↔ x.Runs c p.1 c' ∧ s = p.2 := by
  show (x >>= fun a => pure (a, s)).Runs c p c' ↔ _
  simp only [runs_bind, runs_pure]
  constructor
  · rintro ⟨a, c₁, h, rfl, rfl⟩; exact ⟨h, rfl⟩
  · rintro ⟨h, rfl⟩; exact ⟨p.1, c', h, rfl, rfl⟩

/-- A request has one answer. -/
theorem Runs.unique {x : Planning α} {a b : α} {c₁ c₂ : Cluster} (h : x.Runs c a c₁)
    (h' : x.Runs c b c₂) : a = b ∧ c₁ = c₂ := by
  have := h.symm.trans h'
  cases this
  exact ⟨rfl, rfl⟩

/-- In the session the request fails with such errors only, if it fails. -/
def FailsWith (x : Planning α) (c : Cluster) (P : PlanError → Prop) : Prop :=
  ∀ e, (x.run.run c).1 = .error e → P e

section

variable {P Q : PlanError → Prop}

theorem Runs.failsWith {x : Planning α} {a : α} (h : x.Runs c a c') : x.FailsWith c P := by
  intro e he
  rw [show x.run.run c = _ from h] at he
  cases he

theorem FailsWith.mono {x : Planning α} (h : x.FailsWith c P) (hPQ : ∀ e, P e → Q e) :
    x.FailsWith c Q := fun e he => hPQ e (h e he)

/-- A request that fails with no error succeeds. -/
theorem FailsWith.exists_runs {x : Planning α} (h : x.FailsWith c P) (hP : ∀ e, ¬P e) :
    ∃ a c', x.Runs c a c' := by
  rcases hrun : x.run.run c with ⟨e | a, c'⟩
  · exact absurd (h e (by rw [hrun])) (hP e)
  · exact ⟨a, c', hrun⟩

theorem failsWith_pure (a : α) : (pure a : Planning α).FailsWith c P := fun _ h => by cases h

theorem failsWith_throw {e : PlanError} (h : P e) : (throw e : Planning α).FailsWith c P :=
  fun _ he => by cases he; exact h

theorem failsWith_read (f : Cluster → α) : (read f).FailsWith c P := fun _ h => by cases h

theorem FailsWith.bind {x : Planning α} {f : α → Planning β} (hx : x.FailsWith c P)
    (hf : ∀ a c', x.Runs c a c' → (f a).FailsWith c' P) : (x >>= f).FailsWith c P := by
  intro e he
  rw [ExceptT.run_bind, StateT.run_bind] at he
  rcases hrun : x.run.run c with ⟨e' | a, c'⟩
  · rw [hrun] at he
    cases he
    exact hx e (by rw [hrun])
  · rw [hrun] at he
    exact hf a c' hrun e he

theorem FailsWith.map {x : Planning α} (hx : x.FailsWith c P) (f : α → β) :
    (f <$> x).FailsWith c P := by
  rw [← bind_pure_comp]
  exact hx.bind fun a _ _ => failsWith_pure (f a)

theorem FailsWith.lift_run {x : Planning α} (hx : x.FailsWith c P) (s : σ) :
    ((liftM x : StateT σ Planning α).run s).FailsWith c P :=
  hx.bind fun a _ _ => failsWith_pure (a, s)

end

/-- Requests that are made for each element of a list succeed one after the other. -/
theorem runs_mapM_cons {f : α → Planning β} {a : α} {as : List α} {bs : List β} :
    ((a :: as).mapM f).Runs c bs c' ↔
      ∃ b bs' c₁, (f a).Runs c b c₁ ∧ (as.mapM f).Runs c₁ bs' c' ∧ bs = b :: bs' := by
  rw [List.mapM_cons]
  simp only [runs_bind, runs_pure]
  constructor
  · rintro ⟨b, c₁, h, bs', c₂, h', rfl, rfl⟩
    exact ⟨b, bs', c₁, h, h', rfl⟩
  · rintro ⟨b, bs', c₁, h, h', rfl⟩
    exact ⟨b, c₁, h, bs', c', h', rfl, rfl⟩

end Planning

namespace Registering

/-- The request succeeds with that answer and leaves that registry and that session. -/
def Runs {α : Type} (x : Registering α) (r : Registry) (c : Cluster) (a : α) (r' : Registry)
    (c' : Cluster) : Prop :=
  (x.run.run r).run c = ((.ok a, r'), c')

variable {α β : Type} {r r' : Registry} {c c' : Cluster}

theorem runs_of_toOption {x : Registering α} {a : α}
    (h : ((x.run.run r).run c).1.1.toOption = some a) :
    x.Runs r c a ((x.run.run r).run c).1.2 ((x.run.run r).run c).2 := by
  unfold Runs
  rcases hrun : (x.run.run r).run c with ⟨⟨e | b, r'⟩, c'⟩
  · rw [hrun] at h
    cases h
  · rw [hrun] at h
    cases h
    rfl

@[simp] theorem runs_pure {a b : α} :
    (pure a : Registering α).Runs r c b r' c' ↔ a = b ∧ r = r' ∧ c = c' := by
  simp only [Runs, ExceptT.run_pure]
  exact ⟨fun h => by cases h; exact ⟨rfl, rfl, rfl⟩, fun ⟨h, h', h''⟩ => by rw [h, h', h'']; rfl⟩

@[simp] theorem runs_bind {x : Registering α} {f : α → Registering β} {b : β} :
    (x >>= f).Runs r c b r' c' ↔
      ∃ a r₁ c₁, x.Runs r c a r₁ c₁ ∧ (f a).Runs r₁ c₁ b r' c' := by
  simp only [Runs, ExceptT.run_bind, StateT.run_bind]
  rcases h : (x.run.run r).run c with ⟨⟨_ | a, r₁⟩, c₁⟩
  · constructor
    · intro h'; cases h'
    · rintro ⟨a, r₂, c₂, h', -⟩; cases h'
  · constructor
    · intro h'; exact ⟨a, r₁, c₁, rfl, h'⟩
    · rintro ⟨a', r₂, c₂, h', h''⟩; cases h'; exact h''

@[simp] theorem runs_throw {e : PlanError} {a : α} :
    ¬(throw e : Registering α).Runs r c a r' c' := by
  intro h; cases h

@[simp] theorem runs_read {f : Registry → Cluster → α} {a : α} :
    (read f).Runs r c a r' c' ↔ f r c = a ∧ r = r' ∧ c = c' := by
  show ((Except.ok (f r c), r), c) = ((.ok a, r'), c') ↔ _
  simp [Prod.mk.injEq, and_assoc]

@[simp] theorem runs_session {a : Cluster} :
    session.Runs r c a r' c' ↔ c = a ∧ r = r' ∧ c = c' := by
  simp [session]

@[simp] theorem runs_ofPlanning {x : Planning α} {a : α} :
    (ofPlanning x).Runs r c a r' c' ↔ x.Runs c a c' ∧ r = r' := by
  unfold Runs Planning.Runs
  show (((x.run c).1, r), (x.run c).2) = _ ↔ x.run c = _ ∧ _
  rcases x.run c with ⟨o, c₁⟩
  constructor
  · intro h; cases h; exact ⟨rfl, rfl⟩
  · rintro ⟨h, rfl⟩; cases h; rfl

/-- A request to the session alone is lifted by leaving the registry as it is. -/
@[simp] theorem runs_liftM {x : Planning α} {a : α} :
    (liftM x : Registering α).Runs r c a r' c' ↔ x.Runs c a c' ∧ r = r' :=
  runs_ofPlanning

@[simp] theorem runs_monadLift {x : Planning α} {a : α} :
    (MonadLift.monadLift x : Registering α).Runs r c a r' c' ↔ x.Runs c a c' ∧ r = r' :=
  runs_ofPlanning

@[simp] theorem runs_modify {f : Registry → Registry} {u : PUnit} :
    (modifyThe Registry f : Registering PUnit).Runs r c u r' c' ↔ f r = r' ∧ c = c' := by
  show ((Except.ok PUnit.unit, f r), c) = ((.ok u, r'), c') ↔ _
  simp [Prod.mk.injEq]

end Registering

end QueryPlan
