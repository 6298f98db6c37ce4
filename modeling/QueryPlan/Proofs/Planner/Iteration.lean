import QueryPlan.Proofs.Planner.Registration
import QueryPlan.Proofs.Session.Walks
import QueryPlan.Planner.Heuristic
/-!
# A planner returns a plan related to the one it was given

The loop of the heuristic planner as a chain of related roots. What is asked of a rule is that it
offers a related node for a valid node of its pattern; registration, replacement, the sequence of
attempts and the number of changes add nothing to that.
-/
namespace QueryPlan

/-! ## The loop -/

namespace Planner

open Registering Cluster Registry

/-- A rule offers related nodes only. `C` is the session in which everything has ended. -/
def OffersRelated (E : NodeId → NodeId → Prop) (C : Cluster) (rule : Rule) : Prop :=
  ∀ {id offered : NodeId} {c c' : Cluster}, id < c.size → c.Valid id →
    rule.accepts c id = true → (rule.offer id).Runs c (some offered) c' → c'.Extends C →
    offered < c'.size ∧ E id offered

theorem grows_apply (rule : Rule) (id root : NodeId) : (apply rule id root).Grows := by
  refine (grows_read _).bind fun c => ?_
  split
  · exact grows_pure _
  · refine (grows_liftM (Rule.grows_offer rule id)).bind fun o => ?_
    cases o with
    | none => exact grows_pure _
    | some offered =>
      refine (grows_ensureRegistered offered).bind fun registered => ?_
      split
      · exact grows_pure _
      · exact (grows_liftM (grows_replace _ _ _)).bind fun _ =>
          (grows_ensureRegistered _).bind fun _ => grows_pure _

theorem grows_applyFirst (root : NodeId) (attempts : List (NodeId × Rule)) :
    (applyFirst root attempts).Grows := by
  induction attempts with
  | nil => exact grows_pure _
  | cons attempt attempts ih =>
    refine (grows_apply _ _ _).bind fun o => ?_
    cases o with
    | none => exact ih
    | some changed => exact grows_pure _

theorem grows_iterate (p : Planner) (limit : Nat) (root : NodeId) :
    (p.iterate limit root).Grows := by
  induction limit generalizing root with
  | zero => exact grows_pure _
  | succ limit ih =>
    refine (grows_read _).bind fun c => (grows_applyFirst _ _).bind fun o => ?_
    cases o with
    | none => exact grows_pure _
    | some changed => exact ih changed

theorem grows_optimize (p : Planner) (id : NodeId) : (p.optimize id).Grows :=
  (grows_ensureRegistered id).bind fun _ => grows_iterate p p.limit _

variable {C : Cluster} {E : NodeId → NodeId → Prop} {r r' : Registry} {c c' : Cluster}

/-- What trying a rule leads to: the registry stays sound, and a changed root is registered. -/
def Changed (E : NodeId → NodeId → Prop) (root : NodeId) (o : Option NodeId) (r' : Registry)
    (c' : Cluster) : Prop :=
  r'.Sound c' ∧ ∀ changed, o = some changed → Registered E root changed r' c'

theorem apply_changed (hE : C.Congruence E) (hdigest : C.DigestsIdentify) {rule : Rule}
    (hrule : OffersRelated E C rule) {id root : NodeId} {o : Option NodeId} (hr : r.Sound c)
    (hroot : root < c.size) (hid : id < c.size) (hvalid : c.Valid id)
    (h : (apply rule id root).Runs r c o r' c') (hC : c'.Extends C) : Changed E root o r' c' := by
  unfold apply at h
  rw [runs_bind] at h
  obtain ⟨c₁, r₁, c₂, hsession, h⟩ := h
  obtain ⟨rfl, rfl, rfl⟩ := runs_session.mp hsession
  have unchanged : ∀ {r₁ c₁}, r₁.Sound c₁ →
      (pure none : Registering (Option NodeId)).Runs r₁ c₁ o r' c' → Changed E root o r' c' := by
    intro r₁ c₁ hr₁ hrun
    obtain ⟨rfl, rfl, rfl⟩ := runs_pure.mp hrun
    exact ⟨hr₁, by simp⟩
  split at h
  · exact unchanged hr h
  · next haccepts =>
    simp only [runs_bind, runs_liftM] at h
    obtain ⟨offer, r₂, c₂, ⟨hoffer, rfl⟩, h⟩ := h
    have hgrow₁ := (Rule.grows_offer rule id).runs hoffer
    cases offer with
    | none => exact unchanged (hr.mono hgrow₁) h
    | some offered =>
      simp only [runs_bind] at h
      obtain ⟨registered, r₃, c₃, hregistered, h⟩ := h
      have hgrow₂ := (grows_ensureRegistered offered).runs hregistered
      split at h
      · next heq =>
        obtain ⟨rfl, rfl, rfl⟩ := runs_pure.mp h
        obtain ⟨hlt, hrel⟩ := hrule hid hvalid (by simpa using haccepts) hoffer (hgrow₂.trans hC)
        exact ⟨(ensureRegistered_registered hE hdigest offered (hr.mono hgrow₁) hlt hregistered
          hC).sound, by simp⟩
      · simp only [runs_bind, runs_liftM, runs_pure] at h
        obtain ⟨replaced, r₄, c₄, ⟨hreplace, rfl⟩, changed, r₅, c₅, hchanged, rfl, rfl, rfl⟩ := h
        have hgrow₃ := (grows_replace root id registered).runs hreplace
        have hgrow₄ := (grows_ensureRegistered replaced).runs hchanged
        have hC₃ := (hgrow₃.trans hgrow₄).trans hC
        obtain ⟨hlt, hrel⟩ :=
          hrule hid hvalid (by simpa using haccepts) hoffer (hgrow₂.trans hC₃)
        have hreg := ensureRegistered_registered hE hdigest offered (hr.mono hgrow₁) hlt
          hregistered hC₃
        obtain ⟨hlt', hrel'⟩ := replace_related hE ((hgrow₁.trans hgrow₂).lt_size hroot)
          hreg.lt_size (hE.trans hrel hreg.related) hreplace (hgrow₄.trans hC)
        have hnew := ensureRegistered_registered hE hdigest replaced (Sound.mono hreg.sound hgrow₃) hlt'
          hchanged hC
        refine ⟨hnew.sound, fun changed' heq => ?_⟩
        cases heq
        exact ⟨hnew.sound, hnew.lt_size, hE.trans hrel' hnew.related, hnew.valid⟩

theorem applyFirst_changed (hE : C.Congruence E) (hdigest : C.DigestsIdentify) {root : NodeId}
    (attempts : List (NodeId × Rule)) {o : Option NodeId} (hr : r.Sound c) (hroot : root < c.size)
    (hattempts : ∀ a ∈ attempts, a.1 < c.size ∧ c.Valid a.1 ∧ OffersRelated E C a.2)
    (h : (applyFirst root attempts).Runs r c o r' c') (hC : c'.Extends C) :
    Changed E root o r' c' := by
  induction attempts generalizing r c with
  | nil =>
    obtain ⟨rfl, rfl, rfl⟩ := runs_pure.mp h
    exact ⟨hr, by simp⟩
  | cons attempt attempts ih =>
    obtain ⟨id, rule⟩ := attempt
    rw [applyFirst, runs_bind] at h
    obtain ⟨o₁, r₁, c₁, happly, h⟩ := h
    obtain ⟨hid, hvalid, hrule⟩ := hattempts _ List.mem_cons_self
    have hgrow := (grows_apply rule id root).runs happly
    cases o₁ with
    | some changed =>
      obtain ⟨rfl, rfl, rfl⟩ := runs_pure.mp h
      exact apply_changed hE hdigest hrule hr hroot hid hvalid happly hC
    | none =>
      have hgrow' := (grows_applyFirst root attempts).runs h
      have hchanged := apply_changed hE hdigest hrule hr hroot hid hvalid happly (hgrow'.trans hC)
      refine ih hchanged.1 (hgrow.lt_size hroot) (fun a ha => ?_) h
      obtain ⟨hlt, hv, hrule'⟩ := hattempts a (List.mem_cons_of_mem _ ha)
      exact ⟨hgrow.lt_size hlt, hv.mono hgrow hlt, hrule'⟩

/-- Every attempt is on a valid node of the plan. -/
theorem attempts_valid (p : Planner) {root : NodeId} (hroot : root < c.size)
    (hvalid : c.Valid root) :
    ∀ a ∈ p.attempts c root, a.1 < c.size ∧ c.Valid a.1 ∧ a.2 ∈ p.rules := by
  intro a ha
  obtain ⟨id, hid, ha⟩ := List.mem_flatMap.mp ha
  obtain ⟨rule, hrule, rfl⟩ := List.mem_map.mp ha
  have hnode : id < c.size ∧ c.Valid id :=
    nodesIn_subset (P := fun i => i < c.size ∧ c.Valid i)
      (fun i hi j hj => ⟨inputs_lt_size hj, hi.2.inputs j hj⟩) ⟨hroot, hvalid⟩ p.order id hid
  exact ⟨hnode.1, hnode.2, hrule⟩

theorem iterate_registered (hE : C.Congruence E) (hdigest : C.DigestsIdentify) (p : Planner)
    (hrules : ∀ rule ∈ p.rules, OffersRelated E C rule) (limit : Nat) {root result : NodeId}
    (hr : r.Sound c) (hroot : root < c.size) (hvalid : c.Valid root)
    (h : (p.iterate limit root).Runs r c result r' c') (hC : c'.Extends C) :
    Registered E root result r' c' := by
  induction limit generalizing r c root with
  | zero =>
    obtain ⟨rfl, rfl, rfl⟩ := runs_pure.mp h
    exact ⟨hr, hroot, hE.refl _, hvalid⟩
  | succ limit ih =>
    unfold iterate at h
    rw [runs_bind] at h
    obtain ⟨c₁, r₁, c₂, hsession, h⟩ := h
    obtain ⟨rfl, rfl, rfl⟩ := runs_session.mp hsession
    rw [runs_bind] at h
    obtain ⟨o, r₂, c₂, hfirst, h⟩ := h
    have hattempts : ∀ a ∈ p.attempts c root, a.1 < c.size ∧ c.Valid a.1 ∧ OffersRelated E C a.2 := by
      intro a ha
      obtain ⟨hlt, hv, hrule⟩ := p.attempts_valid hroot hvalid a ha
      exact ⟨hlt, hv, hrules _ hrule⟩
    cases o with
    | none =>
      obtain ⟨rfl, rfl, rfl⟩ := runs_pure.mp h
      have hgrow := (grows_applyFirst root _).runs hfirst
      obtain ⟨hr₂, -⟩ := applyFirst_changed hE hdigest _ hr hroot hattempts hfirst hC
      exact ⟨hr₂, hgrow.lt_size hroot, hE.refl _, hvalid.mono hgrow hroot⟩
    | some changed =>
      have hgrow := (grows_iterate p limit changed).runs h
      obtain ⟨-, hchanged⟩ := applyFirst_changed hE hdigest _ hr hroot hattempts hfirst
        (hgrow.trans hC)
      have hreg := hchanged changed rfl
      have hlast := ih hreg.sound hreg.lt_size hreg.valid h
      exact ⟨hlast.sound, hlast.lt_size, hE.trans hreg.related hlast.related, hlast.valid⟩

/-- A planner whose rules offer related nodes returns a related root, which is valid. -/
theorem optimize_registered (hE : C.Congruence E) (hdigest : C.DigestsIdentify) (p : Planner)
    (hrules : ∀ rule ∈ p.rules, OffersRelated E C rule) {id result : NodeId} (hr : r.Sound c)
    (hid : id < c.size) (h : (p.optimize id).Runs r c result r' c') (hC : c'.Extends C) :
    Registered E id result r' c' := by
  unfold optimize at h
  rw [runs_bind] at h
  obtain ⟨registered, r₁, c₁, hregistered, h⟩ := h
  have hgrow := (grows_iterate p p.limit registered).runs h
  have hreg := ensureRegistered_registered hE hdigest id hr hid hregistered (hgrow.trans hC)
  have hlast := iterate_registered hE hdigest p hrules p.limit hreg.sound hreg.lt_size hreg.valid
    h hC
  exact ⟨hlast.sound, hlast.lt_size, hE.trans hreg.related hlast.related, hlast.valid⟩

end Planner

namespace Planning

theorem runs_registering {α : Type} {requests : Registering α} {c c' : Cluster} {a : α} :
    (registering requests).Runs c a c' ↔ ∃ r, requests.Runs {} c a r c' := by
  unfold Runs Registering.Runs
  change (((requests.run.run {}).run c).1.1, ((requests.run.run {}).run c).2) = _ ↔ _
  rcases (requests.run.run {}).run c with ⟨⟨o, r⟩, c₁⟩
  constructor
  · intro h
    cases h
    exact ⟨r, rfl⟩
  · rintro ⟨r', h⟩
    cases h
    rfl

theorem grows_registering {α : Type} {requests : Registering α} (h : requests.Grows) :
    (registering requests).Grows := by
  intro c
  have hc := h {} c
  exact hc

end Planning

namespace Cluster

theorem grows_optimize (program : Program) (id : NodeId) : (optimize program id).Grows :=
  (Planning.grows_read _).bind fun _ => Planning.grows_registering (Planner.grows_optimize _ _)

/-- Optimizing a plan by rules that offer related nodes returns a related plan, which is valid. -/
theorem optimize_related {C : Cluster} {E : NodeId → NodeId → Prop} (hE : C.Congruence E)
    (hdigest : C.DigestsIdentify) {program : Program}
    (hrules : ∀ rule ∈ program.rules, Planner.OffersRelated E C rule) {id result : NodeId}
    {c c' : Cluster} (hid : id < c.size) (h : (optimize program id).Runs c result c')
    (hC : c'.Extends C) : result < c'.size ∧ c'.Valid result ∧ E id result := by
  unfold optimize at h
  rw [Planning.runs_bind] at h
  obtain ⟨config, c₁, hconfig, h⟩ := h
  obtain ⟨rfl, rfl⟩ := Planning.runs_read.mp hconfig
  obtain ⟨r, hrun⟩ := Planning.runs_registering.mp h
  have hreg := (Planner.new program c.config).optimize_registered hE hdigest hrules
    (Registry.Sound.empty c) hid hrun hC
  exact ⟨hreg.lt_size, hreg.valid, hreg.related⟩

end Cluster

end QueryPlan
