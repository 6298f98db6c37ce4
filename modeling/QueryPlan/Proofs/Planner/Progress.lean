import QueryPlan.Proofs.Planner.Requests
import QueryPlan.Proofs.Planner.Soundness
import QueryPlan.Proofs.Rule.Shapes
import QueryPlan.Proofs.Session.Replacement
/-!
# The planner does not fail on well typed plans

Every rule offers a well typed node with the column types of a well typed one, so no check that the planner
makes on its way can fail: neither of the attributes of a node, nor of the column types of what replaces or
represents it, nor of the columns that a condition reads through a projection.
-/
namespace QueryPlan

namespace Cluster

/-- No two nodes are written alike and have different operators, and columns are counted by a machine
word. -/
structure Regular (c : Cluster) : Prop where
  digests : c.DigestsIdentify
  words : c.FitsWord

variable {c c' : Cluster}

theorem DigestsIdentify.of_extends (hc : c.Extends c') (h : c'.DigestsIdentify) : c.DigestsIdentify := by
  intro i j hi hj hdigest
  rw [← hc.digest_eq hi, ← hc.digest_eq hj] at hdigest
  rw [← hc.operator_eq hi, ← hc.operator_eq hj]
  exact h (hc.lt_size hi) (hc.lt_size hj) hdigest

theorem FitsWord.of_extends (hc : c.Extends c') (h : c'.FitsWord) : c.FitsWord :=
  fun id hid => hc.arity_eq hid ▸ h id (hc.lt_size hid)

theorem Regular.of_extends (hc : c.Extends c') (h : c'.Regular) : c.Regular :=
  ⟨h.digests.of_extends hc, h.words.of_extends hc⟩

theorem isCompatible_of_types_eq {i j : NodeId} (h : c.types j = c.types i) :
    (c.rowType i).isCompatible (c.rowType j) = true :=
  RowType.isCompatible_iff.mpr h.symm

end Cluster

/-! ## Every rule keeps types -/

namespace Planner

open Cluster

variable {C : Cluster}

/-- What a rule offers for a well typed node is well typed, with the same column types. -/
theorem offersRelated_keepsTypes (hwords : C.FitsWord) (rule : Rule) :
    OffersRelated C.KeepsTypes C rule := by
  intro id offered c c' hid _ haccepts h hC
  obtain ⟨hlt, h⟩ := rule.offered_of_runs hid haccepts h hC
  refine ⟨hlt, ?_⟩
  cases h with
  | filterProjectTranspose hnode hproject hthrough hfilter hoffered =>
    exact keepsTypes_belowProjection hnode hproject hthrough hfilter hoffered
  | projectMerge hnode hbottom hmerged hoffered =>
    exact keepsTypes_projectionMerge hnode hbottom hmerged hoffered
  | projectRemove hnode hidentity => exact keepsTypes_removeIdentity hnode hidentity
  | filterMerge hnode hbottom hoffered => exact keepsTypes_filterMerge hnode hbottom hoffered
  | filterIntoJoin hnode hjoined hleft hright hjoin hoffered _ =>
    exact keepsTypes_intoJoin hnode hjoined hleft hright hjoin hoffered
      (hwords _ (hjoined.input_lt (by simp)))
  | joinProjectTranspose hnode hleft hright hthrough hjoin hcolumns hoffered _ =>
    exact keepsTypes_aboveJoin hnode hleft hright hthrough hjoin hcolumns hoffered
      (hwords _ hjoin.lt_size)

end Planner

/-! ## Requests that succeed -/

namespace Registering

open Registry Cluster

/-- The session after a request, whether it succeeds or fails. -/
def leaves {α : Type} (x : Registering α) (r : Registry) (c : Cluster) : Cluster := ((x.run.run r).run c).2

/-- The registry after a request, whether it succeeds or fails. -/
def registers {α : Type} (x : Registering α) (r : Registry) (c : Cluster) : Registry :=
  ((x.run.run r).run c).1.2

theorem runs_leaves {α : Type} {x : Registering α} {r : Registry} {c : Cluster} {a : α}
    (h : ((x.run.run r).run c).1.1.toOption = some a) : x.Runs r c a (x.registers r c) (x.leaves r c) :=
  runs_of_toOption h

/-- The request succeeds, unless it leaves a session in which digests are ambiguous or columns cannot be
counted. -/
def Succeeds {α : Type} (x : Registering α) (r : Registry) (c : Cluster) : Prop :=
  (x.leaves r c).Regular → ∃ a r' c', x.Runs r c a r' c'

variable {α β : Type} {r r' : Registry} {c c' : Cluster}

theorem Runs.leaves_eq {x : Registering α} {a : α} (h : x.Runs r c a r' c') : x.leaves r c = c' :=
  congrArg Prod.snd (show (x.run.run r).run c = ((.ok a, r'), c') from h)

theorem Runs.leaves_bind {x : Registering α} {a : α} (h : x.Runs r c a r' c') (f : α → Registering β) :
    (x >>= f).leaves r c = (f a).leaves r' c' := by
  simp only [leaves, ExceptT.run_bind, StateT.run_bind,
    show (x.run.run r).run c = ((.ok a, r'), c') from h]
  rfl

theorem succeeds_pure (a : α) : (pure a : Registering α).Succeeds r c :=
  fun _ => ⟨a, r, c, runs_pure.mpr ⟨rfl, rfl, rfl⟩⟩

theorem succeeds_read (f : Registry → Cluster → α) : (read f).Succeeds r c :=
  fun _ => ⟨f r c, r, c, runs_read.mpr ⟨rfl, rfl, rfl⟩⟩

theorem succeeds_liftM {x : Planning α} (h : ∃ a c', x.Runs c a c') :
    (liftM x : Registering α).Succeeds r c := by
  obtain ⟨a, c', h⟩ := h
  exact fun _ => ⟨a, r, c', runs_liftM.mpr ⟨h, rfl⟩⟩

theorem Succeeds.bind {x : Registering α} {f : α → Registering β} (hgrows : ∀ a, (f a).Grows)
    (hx : x.Succeeds r c)
    (hf : ∀ a r₁ c₁, x.Runs r c a r₁ c₁ → c₁.Regular → (f a).Succeeds r₁ c₁) :
    (x >>= f).Succeeds r c := by
  intro hregular
  rcases h : (x.run.run r).run c with ⟨⟨e | a, r₁⟩, c₁⟩
  · have hleaves : (x >>= f).leaves r c = x.leaves r c := by
      simp only [leaves, ExceptT.run_bind, StateT.run_bind, h]
      rfl
    obtain ⟨a, r', c', hrun⟩ := hx (hleaves ▸ hregular)
    cases h.symm.trans hrun
  · rw [Runs.leaves_bind h] at hregular
    obtain ⟨b, r', c', hrun⟩ := hf a r₁ c₁ h (hregular.of_extends (hgrows a r₁ c₁)) hregular
    exact ⟨b, r', c', runs_bind.mpr ⟨a, r₁, c₁, h, hrun⟩⟩

end Registering

namespace Registry

open Registering Cluster

variable {r : Registry} {c : Cluster} {id : NodeId}

theorem succeeds_represent : (represent id).Succeeds r c := by
  refine Succeeds.bind (fun d => ?_) (succeeds_read _) fun d r₁ c₁ _ _ => ?_
  · refine (grows_read _).bind fun o => ?_
    cases o with
    | some registered => exact grows_pure _
    | none => exact (grows_modify _).bind fun _ => grows_pure _
  · refine Succeeds.bind (fun o => ?_) (succeeds_read _) fun o r₂ c₂ _ _ => ?_
    · cases o with
      | some registered => exact grows_pure _
      | none => exact (grows_modify _).bind fun _ => grows_pure _
    · cases o with
      | some registered => exact succeeds_pure _
      | none =>
        refine fun _ => ⟨id, r₂.add d id, c₂, ?_⟩
        rw [runs_bind]
        exact ⟨⟨⟩, _, c₂, runs_modify.mpr ⟨rfl, rfl⟩, runs_pure.mpr ⟨rfl, rfl, rfl⟩⟩

/-- A well typed input keeps its column types. -/
theorem succeeds_registerInput {input : NodeId} (hr : r.Sound c) (hinput : input < c.size)
    (hwell : c.WellTyped input) (h : (ensureRegistered input).Succeeds r c) :
    (registerInput input).Succeeds r c := by
  refine Succeeds.bind (fun registered => ?_) h fun registered r₁ c₁ hrun hregular => ?_
  · exact (grows_liftM (grows_checkSameType _ _)).bind fun _ => grows_pure _
  · have hgrow := (grows_ensureRegistered input).runs hrun
    have hreg := ensureRegistered_registered (keepsTypes_congruence c₁) hregular.digests input hr hinput
      hrun (.refl c₁)
    have htypes := (hreg.related (hwell.mono hgrow hinput)).2
    refine Succeeds.bind (fun _ => grows_pure _) (succeeds_liftM ⟨(), c₁, ?_⟩) fun _ _ _ _ _ =>
      succeeds_pure _
    refine Planning.runs_inspect.mpr ⟨?_, rfl⟩
    rw [if_pos (isCompatible_of_types_eq htypes)]

theorem succeeds_registerInputs (below : List { j : NodeId // j < id })
    (ih : ∀ j < id, ∀ {r c}, r.Sound c → j < c.size → c.WellTyped j → (ensureRegistered j).Succeeds r c)
    (hr : r.Sound c) (hid : id < c.size) (hwell : ∀ j ∈ below, c.WellTyped j.1) :
    (below.mapM fun j => registerInput j.1).Succeeds r c := by
  induction below generalizing r c with
  | nil => exact succeeds_pure _
  | cons j below ihbelow =>
    obtain ⟨hj, hwell⟩ := List.forall_mem_cons.mp hwell
    have hlt : j.1 < c.size := Nat.lt_trans j.2 hid
    have hrest : (below.mapM fun j => registerInput j.1).Grows :=
      grows_mapM below fun j _ => grows_registerInput j.1
    rw [List.mapM_cons]
    refine Succeeds.bind (fun _ => hrest.bind fun _ => grows_pure _)
      (succeeds_registerInput hr hlt hj (ih j.1 j.2 hr hlt hj)) fun registered r₁ c₁ hrun hregular => ?_
    have hgrow := (grows_registerInput j.1).runs hrun
    simp only [registerInput, runs_bind, runs_liftM, runs_pure] at hrun
    obtain ⟨_, r₂, c₂, hensure, _, _, _, ⟨hsame, rfl⟩, rfl, rfl, rfl⟩ := hrun
    obtain ⟨-, rfl⟩ := runs_checkSameType hsame
    have hreg := ensureRegistered_registered (keepsTypes_congruence c₂) hregular.digests j.1 hr hlt hensure
      (.refl c₂)
    refine Succeeds.bind (fun _ => grows_pure _) (ihbelow hreg.sound (hgrow.lt_size hid) fun k hk => ?_)
      fun _ _ _ _ _ => succeeds_pure _
    exact (hwell k hk).mono hgrow (Nat.lt_trans k.2 hid)

/-- Well typed nodes can be registered. -/
theorem succeeds_ensureRegistered (hr : r.Sound c) (hid : id < c.size) (hwell : c.WellTyped id) :
    (ensureRegistered id).Succeeds r c := by
  -- on the number of the node: its inputs have smaller numbers
  induction id using Nat.strongRecOn generalizing r c with
  | ind id ih =>
    have hend : ∀ copied, (liftM (Planning.inspect (·.check copied)) >>= fun _ => represent copied).Grows :=
      fun copied => (grows_liftM (Planning.grows_inspect _)).bind fun _ => grows_represent _
    rw [ensureRegistered]
    refine Succeeds.bind (fun held => ?_) (succeeds_read _) fun held r₁ c₁ hheld _ => ?_
    · split
      · exact grows_pure _
      · exact (grows_read _).bind fun below => (grows_mapM _ fun j _ => grows_registerInput j.1).bind
          fun inputs => (grows_liftM (grows_copyOver _ _)).bind hend
    obtain ⟨-, rfl, rfl⟩ := runs_read.mp hheld
    split
    · exact succeeds_pure _
    refine Succeeds.bind (fun below => ?_) (succeeds_read _) fun below r₁ c₁ hbelow _ => ?_
    · exact (grows_mapM _ fun j _ => grows_registerInput j.1).bind
        fun inputs => (grows_liftM (grows_copyOver _ _)).bind hend
    obtain ⟨rfl, rfl, rfl⟩ := runs_read.mp hbelow
    have hbelowWell : ∀ j ∈ c.inputsBelow id, c.WellTyped j.1 := fun j hj =>
      hwell.inputs j.1 (inputsBelow_map_val c id ▸ List.mem_map_of_mem hj)
    refine Succeeds.bind (fun inputs => (grows_liftM (grows_copyOver _ _)).bind hend)
      (succeeds_registerInputs _ (fun j hj => ih j hj) hr hid hbelowWell)
      fun inputs r₁ c₁ hinputs hregular => ?_
    replace hinputs : ((c.inputsBelow id).mapM fun j => registerInput j.1).Runs r c inputs r₁ c₁ := hinputs
    have hgrow := (grows_mapM _ fun (j : { j : NodeId // j < id }) _ => grows_registerInput j.1).runs hinputs
    have hregistered : ∀ {C : Cluster}, C.Regular → c₁.Extends C →
        List.Forall₂ C.KeepsTypes (c₁.inputs id) inputs ∧ ∀ j ∈ inputs, j < c₁.size := by
      intro C hC hgrowC
      obtain ⟨-, hrels, hinputs⟩ := registerInputs_registered (c.inputsBelow id)
        (fun j _ => ensureRegistered_registered (keepsTypes_congruence C) hC.digests j) hr hid hinputs
        hgrowC
      rw [inputsBelow_map_val, ← hgrow.inputs_eq hid] at hrels
      exact ⟨hrels, fun j hj => (hinputs j hj).1⟩
    obtain ⟨hrels, hlt⟩ := hregistered hregular (.refl c₁)
    refine Succeeds.bind hend (succeeds_liftM
      (copyOver_succeeds_of_length (hgrow.lt_size hid) hrels.length_eq.symm hlt))
      fun copied r₂ c₂ hcopy hregular₂ => ?_
    have hcopied := runs_copyOver (hgrow.lt_size hid) (runs_liftM.mp hcopy).1
    -- the copy is well typed, so it passes its check
    have hrel := (keepsTypes_congruence c₂).copied hcopied (hgrow.lt_size hid) (.refl c₂)
      (hregistered hregular₂ hcopied.grows).1
    have hcopiedWell := (hrel (hwell.mono (hgrow.trans hcopied.grows) hid)).1
    exact Succeeds.bind (fun _ => grows_represent _)
      (succeeds_liftM ⟨(), c₂, Planning.runs_inspect.mpr ⟨hcopiedWell.check, rfl⟩⟩)
      fun _ _ _ _ _ => succeeds_represent

end Registry

/-! ## The planner succeeds -/

namespace Planner

open Registering Registry Cluster

variable {r r' : Registry} {c c' : Cluster}

/-- The root after an offered node was registered and replaced another one. -/
def adopt (id root offered : NodeId) : Registering (Option NodeId) := do
  let registered ← ensureRegistered offered
  if registered = id then return none
  let replaced ← replace root id registered
  return some (← ensureRegistered replaced)

theorem apply_eq (rule : Rule) (id root : NodeId) : apply rule id root = (do
    if !rule.accepts (← Registering.session) id then return none
    match ← rule.offer id with
    | none => return none
    | some offered => adopt id root offered) := rfl

theorem grows_replaceRegistered (id root registered : NodeId) :
    (do let replaced ← replace root id registered
        return some (← ensureRegistered replaced) : Registering (Option NodeId)).Grows :=
  (grows_liftM (grows_replace _ _ _)).bind fun _ => (grows_ensureRegistered _).bind fun _ => grows_pure _

theorem grows_adopt (id root offered : NodeId) : (adopt id root offered).Grows := by
  refine (grows_ensureRegistered offered).bind fun registered => ?_
  split
  · exact grows_pure _
  · exact grows_replaceRegistered id root registered

/-- A node can be replaced by what is offered for it if that keeps types. -/
theorem succeeds_adopt {id root offered : NodeId} (hr : r.Sound c) (hid : id < c.size)
    (hroot : root < c.size) (hoffered : offered < c.size) (hwell : c.WellTyped root)
    (hwellId : c.WellTyped id) (hkeeps : c.KeepsTypes id offered) :
    (adopt id root offered).Succeeds r c := by
  obtain ⟨hwellOffered, htypes⟩ := hkeeps hwellId
  refine Succeeds.bind (fun registered => ?_) (succeeds_ensureRegistered hr hoffered hwellOffered)
    fun registered r₁ c₁ hregister hregular₁ => ?_
  · split
    · exact grows_pure _
    · exact grows_replaceRegistered id root registered
  split
  · exact succeeds_pure _
  have hgrow₁ := (grows_ensureRegistered offered).runs hregister
  have hreg : ∀ {C : Cluster}, C.Regular → c₁.Extends C →
      Registered C.KeepsTypes offered registered r₁ c₁ := fun hC hgrowC =>
    ensureRegistered_registered (keepsTypes_congruence _) hC.digests offered hr hoffered hregister hgrowC
  have hkeepsRegistered : ∀ {C : Cluster}, C.Regular → c₁.Extends C → C.KeepsTypes id registered := by
    intro C hC hgrowC hwellC
    have hgrow := hgrow₁.trans hgrowC
    obtain ⟨hwell', htypes'⟩ := (hreg hC hgrowC).related (hwellOffered.mono hgrow hoffered)
    exact ⟨hwell', by rw [htypes', hgrow.types_eq hoffered, htypes, hgrow.types_eq hid]⟩
  have hlt := (hreg hregular₁ (.refl c₁)).lt_size
  have hroot₁ := hgrow₁.lt_size hroot
  have hsame := (hkeepsRegistered hregular₁ (.refl c₁) (hwellId.mono hgrow₁ hid)).2
  refine Succeeds.bind (fun _ => (grows_ensureRegistered _).bind fun _ => grows_pure _)
    (succeeds_liftM (replace_succeeds hroot₁ (hgrow₁.lt_size hid) hlt (isCompatible_of_types_eq hsame)))
    fun replaced r₂ c₂ hreplace hregular₂ => ?_
  obtain ⟨hreplaceRun, rfl⟩ := runs_liftM.mp hreplace
  have hgrow₂ := (grows_replace root id registered).runs hreplaceRun
  obtain ⟨hreplaced, hrel⟩ := replace_related (keepsTypes_congruence c₂) hroot₁ hlt
    (hkeepsRegistered hregular₂ hgrow₂) hreplaceRun (.refl c₂)
  have hsound : r₁.Sound c₂ := Sound.mono (hreg hregular₁ (.refl c₁)).sound hgrow₂
  exact Succeeds.bind (fun _ => grows_pure _) (succeeds_ensureRegistered hsound hreplaced
    (hrel (hwell.mono (hgrow₁.trans hgrow₂) hroot)).1) fun _ _ _ _ _ => succeeds_pure _

/-- Trying a rule on a well typed node of a well typed plan succeeds. -/
theorem succeeds_apply (rule : Rule) {id root : NodeId} (hr : r.Sound c) (hid : id < c.size)
    (hroot : root < c.size) (hwell : c.WellTyped root) (hwellId : c.WellTyped id) :
    (apply rule id root).Succeeds r c := by
  have hgrows : ∀ o : Option NodeId, (match o with
      | none => pure none
      | some offered => adopt id root offered).Grows := by
    rintro (_ | offered)
    · exact grows_pure _
    · exact grows_adopt id root offered
  rw [apply_eq]
  refine Succeeds.bind (fun _ => ?_) (succeeds_read _) fun _ r₁ c₁ hread _ => ?_
  · split
    · exact grows_pure _
    · exact (grows_liftM (rule.grows_offer id)).bind hgrows
  obtain ⟨rfl, rfl, rfl⟩ := runs_read.mp hread
  split
  · exact succeeds_pure _
  · next haccepts =>
    rw [Bool.not_eq_true', Bool.not_eq_false] at haccepts
    refine Succeeds.bind hgrows (succeeds_liftM (rule.offer_succeeds hid hwellId haccepts))
      fun o r₁ c₁ hoffer hregular₁ => ?_
    obtain ⟨hofferRun, rfl⟩ := runs_liftM.mp hoffer
    have hgrow := (rule.grows_offer id).runs hofferRun
    cases o with
    | none => exact succeeds_pure _
    | some offered =>
      obtain ⟨hlt, hkeeps⟩ :=
        offersRelated_keepsTypes hregular₁.words rule hid hwellId.valid haccepts hofferRun (.refl c₁)
      exact succeeds_adopt (hr.mono hgrow) (hgrow.lt_size hid) (hgrow.lt_size hroot) hlt
        (hwell.mono hgrow hroot) (hwellId.mono hgrow hid) hkeeps

theorem succeeds_applyFirst {root : NodeId} (attempts : List (NodeId × Rule)) (hr : r.Sound c)
    (hroot : root < c.size) (hwell : c.WellTyped root)
    (hattempts : ∀ a ∈ attempts, a.1 < c.size ∧ c.WellTyped a.1) :
    (applyFirst root attempts).Succeeds r c := by
  induction attempts generalizing r c with
  | nil => exact succeeds_pure _
  | cons attempt attempts ih =>
    obtain ⟨id, rule⟩ := attempt
    obtain ⟨⟨hid, hwellId⟩, hattempts⟩ := List.forall_mem_cons.mp hattempts
    refine Succeeds.bind (fun o => ?_) (succeeds_apply rule hr hid hroot hwell hwellId)
      fun o r₁ c₁ happly hregular₁ => ?_
    · cases o with
      | none => exact grows_applyFirst root attempts
      | some changed => exact grows_pure _
    cases o with
    | some changed => exact succeeds_pure _
    | none =>
      have hgrow := (grows_apply rule id root).runs happly
      have hchanged := apply_changed (keepsTypes_congruence c₁) hregular₁.digests
        (offersRelated_keepsTypes hregular₁.words rule) hr hroot hid hwellId.valid happly (.refl c₁)
      refine ih hchanged.1 (hgrow.lt_size hroot) (hwell.mono hgrow hroot) fun a ha => ?_
      obtain ⟨hlt, hwellA⟩ := hattempts a ha
      exact ⟨hgrow.lt_size hlt, hwellA.mono hgrow hlt⟩

/-- Every attempt is on a well typed node of a well typed plan. -/
theorem attempts_wellTyped (p : Planner) {root : NodeId} (hroot : root < c.size)
    (hwell : c.WellTyped root) : ∀ a ∈ p.attempts c root, a.1 < c.size ∧ c.WellTyped a.1 := by
  intro a ha
  obtain ⟨id, hid, ha⟩ := List.mem_flatMap.mp ha
  obtain ⟨rule, -, rfl⟩ := List.mem_map.mp ha
  have hplan := (mem_nodesIn_iff hroot p.order).mp hid
  exact ⟨hplan.lt_size hroot, hwell.inPlan hplan⟩

theorem succeeds_iterate (p : Planner) (limit : Nat) {root : NodeId} (hr : r.Sound c)
    (hroot : root < c.size) (hwell : c.WellTyped root) : (p.iterate limit root).Succeeds r c := by
  induction limit generalizing r c root with
  | zero => exact succeeds_pure _
  | succ limit ih =>
    have hgrows {next : Option NodeId → Registering NodeId} (hnone : next none = pure root)
        (hsome : ∀ changed, next (some changed) = p.iterate limit changed) :
        ∀ o, (next o).Grows := by
      rintro (_ | changed)
      · exact hnone ▸ grows_pure _
      · exact hsome changed ▸ grows_iterate p limit changed
    refine Succeeds.bind (fun _ => (grows_applyFirst _ _).bind (hgrows rfl fun _ => rfl))
      (succeeds_read _) fun _ r₁ c₁ hread _ => ?_
    obtain ⟨rfl, rfl, rfl⟩ := runs_read.mp hread
    refine Succeeds.bind (hgrows rfl fun _ => rfl)
      (succeeds_applyFirst _ hr hroot hwell (p.attempts_wellTyped hroot hwell))
      fun o r₁ c₁ hfirst hregular₁ => ?_
    cases o with
    | none => exact succeeds_pure _
    | some changed =>
      have hattempts : ∀ a ∈ p.attempts c root, a.1 < c.size ∧ c.Valid a.1 ∧
          OffersRelated c₁.KeepsTypes c₁ a.2 := fun a ha =>
        have hnode := p.attempts_wellTyped hroot hwell a ha
        ⟨hnode.1, hnode.2.valid, offersRelated_keepsTypes hregular₁.words a.2⟩
      obtain ⟨-, hchanged⟩ := applyFirst_changed (keepsTypes_congruence c₁) hregular₁.digests _ hr hroot
        hattempts hfirst (.refl c₁)
      have hreg := hchanged changed rfl
      have hgrow := (grows_applyFirst root _).runs hfirst
      exact ih hreg.sound hreg.lt_size (hreg.related (hwell.mono hgrow hroot)).1

/-! ## Taking a root and finding the best plan -/

namespace State

/-- The planner answers the request. -/
def Answers (s : State) (request : Request) : Prop :=
  ∃ p r c, (request.perform s.planner).Runs s.registry s.session p r c

theorem after_eq {s : State} {request : Request} {p : Planner}
    (h : (request.perform s.planner).Runs s.registry s.session p r c) : s.after request = ⟨p, r, c⟩ := by
  unfold State.after
  rw [show ((request.perform s.planner).run.run s.registry).run s.session = ((.ok p, r), c) from h]

theorem session_after (s : State) (request : Request) :
    (s.after request).session = (request.perform s.planner).leaves s.registry s.session := by
  unfold State.after leaves
  rcases ((request.perform s.planner).run.run s.registry).run s.session with ⟨⟨e | p, r⟩, c⟩ <;> rfl

/-- A request that succeeds is answered. -/
theorem Answers.of_succeeds {s : State} {request : Request}
    (h : (request.perform s.planner).Succeeds s.registry s.session)
    (hregular : (s.after request).session.Regular) : s.Answers request :=
  h (s.session_after request ▸ hregular)

end State

theorem succeeds_setRoot (p : Planner) {root : NodeId} (hr : r.Sound c) (hroot : root < c.size)
    (hwell : c.WellTyped root) : (p.setRoot root).Succeeds r c :=
  Succeeds.bind (fun _ => grows_pure _) (succeeds_ensureRegistered hr hroot hwell) fun _ _ _ _ _ =>
    succeeds_pure _

theorem runs_setRoot {p p' : Planner} {root : NodeId} (h : (p.setRoot root).Runs r c p' r' c') :
    ∃ registered, (ensureRegistered root).Runs r c registered r' c' ∧
      p' = { p with root := some registered } := by
  simp only [setRoot, runs_bind, runs_pure] at h
  obtain ⟨registered, _, _, hrun, rfl, rfl, rfl⟩ := h
  exact ⟨registered, hrun, rfl⟩

theorem findBest_eq {p : Planner} {root : NodeId} (h : p.root = some root) :
    p.findBest = (do return { p with root := some (← p.iterate p.limit root) }) := by
  rw [findBest, h]

theorem grows_findBest (p : Planner) : p.findBest.Grows := by
  cases h : p.root with
  | none =>
    rw [findBest, h]
    exact grows_throw _
  | some root =>
    rw [findBest_eq h]
    exact (grows_iterate p p.limit root).bind fun _ => grows_pure _

theorem succeeds_findBest {p : Planner} {root : NodeId} (hr : r.Sound c) (hroot : root < c.size)
    (hwell : c.WellTyped root) (h : p.root = some root) : p.findBest.Succeeds r c := by
  rw [findBest_eq h]
  exact Succeeds.bind (fun _ => grows_pure _) (succeeds_iterate p p.limit hr hroot hwell)
    fun _ _ _ _ _ => succeeds_pure _

theorem runs_findBest {p p' : Planner} {root : NodeId} (hroot : p.root = some root)
    (h : p.findBest.Runs r c p' r' c') :
    ∃ result, (p.iterate p.limit root).Runs r c result r' c' ∧ p' = { p with root := some result } := by
  simp only [findBest_eq hroot, runs_bind, runs_pure] at h
  obtain ⟨result, _, _, hrun, rfl, rfl, rfl⟩ := h
  exact ⟨result, hrun, rfl⟩

/-- After a well typed node was taken as root, finding the best plan succeeds for every program: in any
state of the planner both requests are answered, and the plan that is found is well typed, with the column
types of the root. In the session that the requests leave no two nodes are written alike and have different
operators, and no row type has more columns than a machine word counts. -/
theorem findBest_keepsTypes {program : Program} {s : State} {root : NodeId} (h : Reached program s)
    (hroot : root < s.session.size) (hwell : s.session.WellTyped root)
    (hdigest : ((s.after (.setRoot root)).after .findBest).session.DigestsIdentify)
    (hwords : ((s.after (.setRoot root)).after .findBest).session.FitsWord) :
    s.Answers (.setRoot root) ∧ (s.after (.setRoot root)).Answers .findBest ∧
      ∃ result, ((s.after (.setRoot root)).after .findBest).planner.root = some result ∧
        result < ((s.after (.setRoot root)).after .findBest).session.size ∧
        ((s.after (.setRoot root)).after .findBest).session.WellTyped result ∧
        (s.session.rowType root).isCompatible
          (((s.after (.setRoot root)).after .findBest).session.rowType result) = true := by
  have hr : s.registry.Sound s.session := h.consistent.hashConses.sound
  have hgrows : (s.after (.setRoot root)).session.Extends
      ((s.after (.setRoot root)).after .findBest).session := by
    rw [State.session_after _ .findBest]
    exact grows_findBest _ _ _
  have hregular := Regular.of_extends hgrows ⟨hdigest, hwords⟩
  have hset : s.Answers (.setRoot root) := .of_succeeds (succeeds_setRoot _ hr hroot hwell) hregular
  refine ⟨hset, ?_⟩
  obtain ⟨p₁, r₁, c₁, hset⟩ := hset
  rw [State.after_eq hset] at hdigest hwords hregular ⊢
  obtain ⟨registered, hregister, hp₁⟩ := runs_setRoot hset
  have hgrow₁ := (grows_ensureRegistered root).runs hregister
  have hreg := ensureRegistered_registered (keepsTypes_congruence c₁) hregular.digests root hr hroot
    hregister (.refl c₁)
  have hwell₁ := (hreg.related (hwell.mono hgrow₁ hroot)).1
  have hrootEq : p₁.root = some registered := by rw [hp₁]
  have hfind : (State.mk p₁ r₁ c₁).Answers .findBest :=
    .of_succeeds (succeeds_findBest hreg.sound hreg.lt_size hwell₁ hrootEq) ⟨hdigest, hwords⟩
  refine ⟨hfind, ?_⟩
  obtain ⟨p₂, r₂, c₂, hfind⟩ := hfind
  rw [State.after_eq hfind] at hdigest hwords ⊢
  obtain ⟨result, hiterate, hp₂⟩ := runs_findBest hrootEq hfind
  have hgrow₂ := (grows_iterate p₁ p₁.limit registered).runs hiterate
  -- registering and iterating keep types, read in the last session
  have hreg₂ := ensureRegistered_registered (keepsTypes_congruence c₂) hdigest root hr hroot hregister hgrow₂
  have hlast := iterate_registered (keepsTypes_congruence c₂) hdigest p₁
    (fun rule _ => offersRelated_keepsTypes hwords rule) p₁.limit hreg.sound hreg.lt_size hreg.valid
    hiterate (.refl c₂)
  have hgrow := hgrow₁.trans hgrow₂
  obtain ⟨hwellResult, htypes⟩ := (keepsTypes_congruence c₂).trans hreg₂.related hlast.related
    (hwell.mono hgrow hroot)
  refine ⟨result, by rw [hp₂], hlast.lt_size, hwellResult, ?_⟩
  rw [← hgrow.rowType_eq hroot]
  exact isCompatible_of_types_eq htypes

/-! ## Columns in another sequence -/

/-- Employees by department, as far as their departments are known. -/
def departmentsFirst : Planning NodeId := do
  let emps ← createDefault (.scan .none employees) []
  let swapped ← createDefault
    (.project .none [(.column 1 .bigint, "deptno"), (.column 0 .bigint, "empno")]) [emps]
  createDefault (.filter .none (.call .isNotNull [.column 0 .bigint])) [swapped]

/-- A planner for some of the rules over that plan. -/
def departmentsPlanner : State :=
  let c := departmentsFirst.leaves (start default default default)
  ⟨new { rules := [.filterMerge, .filterProjectTranspose, .projectRemove] } c.config, {}, c⟩

/-- The filter moves below the projection. -/
theorem findBest_keepsTypes_departmentsFirst :
    departmentsPlanner.Answers (.setRoot 2) ∧ (departmentsPlanner.after (.setRoot 2)).Answers .findBest ∧
      ∃ result, ((departmentsPlanner.after (.setRoot 2)).after .findBest).planner.root = some result ∧
        result = 4 := by
  have hwell : departmentsPlanner.session.WellTyped 2 := .of_all (by decide +kernel) (by decide +kernel)
  have hend : ((List.range ((departmentsPlanner.after (.setRoot 2)).after .findBest).session.size).map
        ((departmentsPlanner.after (.setRoot 2)).after .findBest).session.digest).Nodup ∧
      ((departmentsPlanner.after (.setRoot 2)).after .findBest).session.FitsWord ∧
      ((departmentsPlanner.after (.setRoot 2)).after .findBest).planner.root = some 4 := by
    decide +kernel
  obtain ⟨hset, hfind, result, hresult, -⟩ := findBest_keepsTypes (.start _)
    (by decide +kernel : 2 < departmentsPlanner.session.size) hwell (.of_nodup hend.1) hend.2.1
  exact ⟨hset, hfind, result, hresult, Option.some.inj (hresult.symm.trans hend.2.2)⟩

end Planner

end QueryPlan
