import Mathlib.Data.List.Nodup
import QueryPlan.Proofs.Session.Congruence
import QueryPlan.Proofs.Session.Digest
import QueryPlan.Planner.Registry
/-!
# Registration keeps what a congruence says

A registered node is written like the node it stands for, over registered inputs. If equal digests
mean equal operators then a registered node and every node of its digest are copies of each other,
so registering returns a related node; and what is registered has passed the check of its
attributes, down to its last input.
-/
namespace QueryPlan

namespace Cluster

/-- The attributes of a node and of every node under it pass their checks. -/
inductive Valid (c : Cluster) : NodeId → Prop
  | node {id : NodeId} (inputs : ∀ j ∈ c.inputs id, Valid c j) (check : c.check id = .ok ()) :
      Valid c id

theorem Valid.inputs {c : Cluster} {id : NodeId} (h : c.Valid id) : ∀ j ∈ c.inputs id, c.Valid j := by
  cases h with
  | node inputs _ => exact inputs

theorem Valid.check {c : Cluster} {id : NodeId} (h : c.Valid id) : c.check id = .ok () := by
  cases h with
  | node _ check => exact check

/-- A node is valid if every node of the session passes its check. -/
theorem Valid.of_all {c : Cluster} {id : NodeId} (hid : id < c.size)
    (h : ∀ i < c.size, (c.check i).isOk = true) : c.Valid id := by
  induction id using Nat.strongRecOn with
  | ind id ih =>
    refine .node (fun j hj => ih j (c.inputs_lt hj) (inputs_lt_size hj)) ?_
    have hok := h id hid
    cases hcheck : c.check id with
    | ok u => rfl
    | error e =>
      rw [hcheck] at hok
      cases hok

theorem Valid.mono {c c' : Cluster} (hc : c.Extends c') {id : NodeId} (hid : id < c.size)
    (h : c.Valid id) : c'.Valid id := by
  induction h with
  | node inputs check ih =>
    refine .node (fun j hj => ?_) (by rw [hc.check_eq hid, check])
    rw [hc.inputs_eq hid] at hj
    exact ih j hj (inputs_lt_size hj)

/-- No two nodes of the session are written alike and have different operators. -/
def DigestsIdentify (c : Cluster) : Prop :=
  ∀ ⦃i j : NodeId⦄, i < c.size → j < c.size → c.digest i = c.digest j →
    c.operator j = c.operator i

theorem DigestsIdentify.of_nodup {c : Cluster} (h : ((List.range c.size).map c.digest).Nodup) :
    c.DigestsIdentify := by
  intro i j hi hj hdigest
  rw [List.inj_on_of_nodup_map h (List.mem_range.mpr hi) (List.mem_range.mpr hj) hdigest]

variable {C : Cluster} {E : NodeId → NodeId → Prop}

/-- Nodes of one digest are related. -/
theorem Congruence.of_digest_eq (hE : C.Congruence E) (hdigest : C.DigestsIdentify) {i j : NodeId}
    (hi : i < C.size) (hj : j < C.size) (h : C.digest i = C.digest j) : E i j := by
  have hop := hdigest hi hj h
  obtain ⟨hin, hsub⟩ := inputs_eq_of_digest_eq hi hj hop h
  cases hs : (C.operator i).isSubset with
  | true =>
    rw [hsub hs]
    exact hE.refl _
  | false =>
    refine hE.node hi hj hop hs ?_
    rw [← hin]
    exact List.forall₂_same.mpr fun k _ => hE.refl k

end Cluster

/-! ## Requests with a registry only add nodes -/

namespace Registering

/-- The request adds nodes at most, also when it fails. -/
def Grows {α : Type} (x : Registering α) : Prop :=
  ∀ (r : Registry) (c : Cluster), c.Extends ((x.run.run r).run c).2

variable {α β : Type}

theorem Grows.runs {x : Registering α} (hx : x.Grows) {r r' : Registry} {c c' : Cluster} {a : α}
    (h : x.Runs r c a r' c') : c.Extends c' := by
  have := hx r c
  rw [show (x.run.run r).run c = ((.ok a, r'), c') from h] at this
  exact this

theorem grows_pure (a : α) : (pure a : Registering α).Grows := fun _ c => .refl c

theorem grows_throw (e : PlanError) : (throw e : Registering α).Grows := fun _ c => .refl c

theorem grows_read (f : Registry → Cluster → α) : (read f).Grows := fun _ c => .refl c

theorem grows_modify (f : Registry → Registry) :
    (modifyThe Registry f : Registering PUnit).Grows := fun _ c => .refl c

theorem Grows.bind {x : Registering α} {f : α → Registering β} (hx : x.Grows)
    (hf : ∀ a, (f a).Grows) : (x >>= f).Grows := by
  intro r c
  have hc := hx r c
  simp only [ExceptT.run_bind, StateT.run_bind]
  rcases h : (x.run.run r).run c with ⟨⟨e | a, r₁⟩, c₁⟩
  · rw [h] at hc; exact hc
  · rw [h] at hc; exact hc.trans (hf a r₁ c₁)

theorem grows_liftM {x : Planning α} (hx : x.Grows) : (liftM x : Registering α).Grows := by
  intro r c
  have hc := hx c
  exact hc

theorem grows_mapM {f : α → Registering β} (as : List α) (hf : ∀ a ∈ as, (f a).Grows) :
    (as.mapM f).Grows := by
  induction as with
  | nil => exact grows_pure []
  | cons a as ih =>
    rw [List.mapM_cons]
    exact (hf a (by simp)).bind fun b =>
      (ih fun x hx => hf x (by simp [hx])).bind fun bs => grows_pure _

end Registering

namespace Registry

theorem find?_empty (d : String) : ({} : Registry).find? d = none := by
  simp [find?]

theorem find?_add (r : Registry) (d d' : String) (id : NodeId) :
    (r.add d id).find? d' = if d = d' then some id else r.find? d' := by
  simp [find?, add, Std.TreeMap.getElem?_insert]

open Registering Cluster

theorem grows_represent (id : NodeId) : (represent id).Grows := by
  refine (grows_read _).bind fun digest => (grows_read _).bind fun o => ?_
  cases o with
  | some registered => exact grows_pure _
  | none => exact (grows_modify _).bind fun _ => grows_pure _

theorem grows_ensureRegistered (id : NodeId) : (ensureRegistered id).Grows := by
  induction id using Nat.strongRecOn with
  | ind id ih =>
    rw [ensureRegistered]
    refine (grows_read _).bind fun held => ?_
    split
    · exact grows_pure _
    · refine (grows_read _).bind fun below => (grows_mapM _ fun j _ => ?_).bind fun inputs =>
        (grows_liftM (grows_copyOver _ _)).bind fun copied =>
          (grows_liftM (Planning.grows_inspect _)).bind fun _ => grows_represent _
      exact (ih j.1 j.2).bind fun registered =>
        (grows_liftM (grows_checkSameType _ _)).bind fun _ => grows_pure _

/-- What is registered exists, is written as the digest says, and is valid. -/
def Sound (r : Registry) (c : Cluster) : Prop :=
  ∀ {d : String} {id : NodeId}, r.find? d = some id → id < c.size ∧ c.digest id = d ∧ c.Valid id

theorem Sound.empty (c : Cluster) : ({} : Registry).Sound c := by
  intro d id h
  simp [find?_empty] at h

theorem Sound.mono {r : Registry} {c c' : Cluster} (h : r.Sound c) (hc : c.Extends c') :
    r.Sound c' := by
  intro d id hfind
  obtain ⟨hlt, hd, hvalid⟩ := h hfind
  exact ⟨hc.lt_size hlt, by rw [hc.digest_eq hlt, hd], hvalid.mono hc hlt⟩

/-- What registering a node has for a result. -/
structure Registered (E : NodeId → NodeId → Prop) (id : NodeId) (result : NodeId)
    (r' : Registry) (c' : Cluster) : Prop where
  sound : r'.Sound c'
  lt_size : result < c'.size
  related : E id result
  valid : c'.Valid result

variable {C : Cluster} {E : NodeId → NodeId → Prop}

theorem represent_registered (hE : C.Congruence E) (hdigest : C.DigestsIdentify)
    {r r' : Registry} {c c' : Cluster} {id result : NodeId} (hr : r.Sound c) (hid : id < c.size)
    (hvalid : c.Valid id) (h : (represent id).Runs r c result r' c') (hC : c'.Extends C) :
    Registered E id result r' c' := by
  simp only [represent, runs_bind, runs_read] at h
  obtain ⟨d, r₁, c₁, ⟨rfl, rfl, rfl⟩, o, r₂, c₂, ⟨ho, rfl, rfl⟩, h⟩ := h
  cases o with
  | some registered =>
    obtain ⟨rfl, rfl, rfl⟩ := runs_pure.mp h
    obtain ⟨hlt, hd, hv⟩ := hr ho
    refine ⟨hr, hlt, hE.of_digest_eq hdigest (hC.lt_size hid) (hC.lt_size hlt) ?_, hv⟩
    rw [hC.digest_eq hid, hC.digest_eq hlt, hd]
  | none =>
    simp only [runs_bind, runs_modify, runs_pure] at h
    obtain ⟨u, r₃, c₃, ⟨rfl, rfl⟩, rfl, rfl, rfl⟩ := h
    refine ⟨?_, hid, hE.refl _, hvalid⟩
    intro d id' hfind
    rw [find?_add] at hfind
    split at hfind
    · next hd =>
      cases hfind
      exact ⟨hid, hd, hvalid⟩
    · exact hr hfind

/-- Registering a node returns a related node that is valid. -/
def Registers (E : NodeId → NodeId → Prop) (C : Cluster) (id : NodeId) : Prop :=
  ∀ {r r' : Registry} {c c' : Cluster} {result : NodeId}, r.Sound c → id < c.size →
    (ensureRegistered id).Runs r c result r' c' → c'.Extends C → Registered E id result r' c'

/-- An input is registered and keeps its column types. -/
def registerInput (input : NodeId) : Registering NodeId := do
  let registered ← ensureRegistered input
  checkSameType input registered
  return registered

theorem grows_registerInput (input : NodeId) : (registerInput input).Grows :=
  (grows_ensureRegistered input).bind fun _ =>
    (grows_liftM (grows_checkSameType _ _)).bind fun _ => grows_pure _

theorem registerInputs_registered {id : NodeId} (below : List { j : NodeId // j < id })
    (ih : ∀ j, j < id → Registers E C j) {r r' : Registry} {c c' : Cluster} {inputs : List NodeId}
    (hr : r.Sound c) (hid : id < c.size)
    (h : (below.mapM fun j => registerInput j.1).Runs r c inputs r' c') (hC : c'.Extends C) :
    r'.Sound c' ∧ List.Forall₂ E (below.map Subtype.val) inputs ∧
      ∀ j ∈ inputs, j < c'.size ∧ c'.Valid j := by
  induction below generalizing r c inputs with
  | nil =>
    simp only [List.mapM_nil, runs_pure] at h
    obtain ⟨rfl, rfl, rfl⟩ := h
    exact ⟨hr, .nil, by simp⟩
  | cons j below ihbelow =>
    simp only [List.mapM_cons, runs_bind, runs_pure] at h
    obtain ⟨result, r₁, c₁, hinput, rest, r₂, c₂, hrest, rfl, rfl, rfl⟩ := h
    have hgrow₁ : c.Extends c₁ := (grows_registerInput j.1).runs hinput
    have hgrow₂ : c₁.Extends c₂ :=
      (grows_mapM below fun j _ => grows_registerInput j.1).runs hrest
    simp only [registerInput, runs_bind, runs_pure, runs_liftM] at hinput
    obtain ⟨result', r₃, c₃, hj, u, r₄, c₄, ⟨hsame, rfl⟩, rfl, rfl, rfl⟩ := hinput
    obtain ⟨-, rfl⟩ := runs_checkSameType hsame
    have hreg := ih j.1 j.2 hr (Nat.lt_trans j.2 hid) hj (hgrow₂.trans hC)
    obtain ⟨hr₂, hrels, hvalids⟩ := ihbelow hreg.sound (hgrow₁.lt_size hid) hrest
    refine ⟨hr₂, .cons hreg.related hrels, ?_⟩
    intro k hk
    rcases List.mem_cons.mp hk with rfl | hk
    · exact ⟨hgrow₂.lt_size hreg.lt_size, hreg.valid.mono hgrow₂ hreg.lt_size⟩
    · exact hvalids k hk

theorem ensureRegistered_registered (hE : C.Congruence E) (hdigest : C.DigestsIdentify)
    (id : NodeId) : Registers E C id := by
  -- on the number of the node: its inputs have smaller numbers
  induction id using Nat.strongRecOn with
  | ind id ih =>
    intro r r' c c' result hr hid h hC
    rw [ensureRegistered] at h
    simp only [runs_bind, runs_read] at h
    obtain ⟨held, r₁, c₁, ⟨hheld, rfl, rfl⟩, h⟩ := h
    split at h
    · next hb =>
      obtain ⟨rfl, rfl, rfl⟩ := runs_pure.mp h
      have hfind : r.find? (c.digest id) = some id := by
        rw [← hheld] at hb
        simpa [holds] using hb
      exact ⟨hr, hid, hE.refl _, (hr hfind).2.2⟩
    · simp only [runs_bind, runs_read, runs_liftM] at h
      obtain ⟨below, r₂, c₂, ⟨hbelow, rfl, rfl⟩, inputs, r₃, c₃, hinputs, copied, r₄, c₄,
        ⟨hcopy, rfl⟩, u, r₅, c₅, ⟨hcheck, rfl⟩, h⟩ := h
      obtain ⟨hpasses, rfl⟩ := Planning.runs_inspect.mp hcheck
      replace hinputs : (below.mapM fun j => registerInput j.1).Runs r c inputs r₃ c₃ := hinputs
      have hgrow₁ : c.Extends c₃ :=
        (grows_mapM below fun j _ => grows_registerInput j.1).runs hinputs
      have hid₃ : id < c₃.size := hgrow₁.lt_size hid
      have hcopied := runs_copyOver hid₃ hcopy
      have hgrow₂ : c₄.Extends c' := (grows_represent _).runs h
      obtain ⟨hr₃, hrels, hvalids⟩ := registerInputs_registered below ih hr hid hinputs
        ((hcopied.grows.trans hgrow₂).trans hC)
      rw [← hbelow, inputsBelow_map_val] at hrels
      have hrel : E id copied := by
        apply hE.copied hcopied hid₃ (hgrow₂.trans hC)
        rw [hgrow₁.inputs_eq hid]
        exact hrels
      have hvalid : c₄.Valid copied := by
        refine .node (fun j hj => ?_) hpasses
        rw [hcopied.inputs_eq] at hj
        exact (hvalids j hj).2.mono hcopied.grows (hvalids j hj).1
      have hrep := represent_registered hE hdigest (hr₃.mono hcopied.grows) hcopied.lt_size hvalid
        h hC
      exact ⟨hrep.sound, hrep.lt_size, hE.trans hrel hrep.related, hrep.valid⟩

end Registry

end QueryPlan
