import QueryPlan.Proofs.Planner.Iteration
import QueryPlan.Proofs.Rule.Offers
import QueryPlan.Proofs.Session.Structure
/-!
# Registered nodes are hash-consed

What is registered is closed under inputs and has one node for each digest. Every request of a planner
keeps that, and what is registered stays registered, also when the request fails halfway. So nodes of one
structure are registered as one node, however often the planner is asked in between.
-/
namespace QueryPlan

namespace Registry

/-- The node is registered: it stands for all nodes that are written like it. -/
def Represents (r : Registry) (id : NodeId) : Prop := ∃ d, r.find? d = some id

/-- Whatever is registered in one registry is registered in the other one. -/
def Extends (r r' : Registry) : Prop := ∀ d id, r.find? d = some id → r'.find? d = some id

theorem Extends.refl (r : Registry) : r.Extends r := fun _ _ h => h

theorem Extends.trans {r₁ r₂ r₃ : Registry} (h : r₁.Extends r₂) (h' : r₂.Extends r₃) : r₁.Extends r₃ :=
  fun d id hd => h' d id (h d id hd)

theorem Extends.represents {r r' : Registry} {id : NodeId} (h : r.Extends r') (hid : r.Represents id) :
    r'.Represents id :=
  hid.imp fun d hd => h d id hd

/-- A new digest changes nothing for the other ones. -/
theorem extends_add {r : Registry} {d : String} (h : r.find? d = none) (id : NodeId) :
    r.Extends (r.add d id) := by
  intro d' id' hd'
  rw [find?_add]
  split
  · next heq =>
    rw [← heq, h] at hd'
    cases hd'
  · exact hd'

/-- Registered nodes are valid nodes under their own digests, and their inputs are registered. -/
structure HashConses (r : Registry) (c : Cluster) : Prop where
  sound : r.Sound c
  closed : ∀ {id : NodeId}, r.Represents id → ∀ j ∈ c.inputs id, r.Represents j

variable {r r' : Registry} {c c' : Cluster} {id j : NodeId}

theorem HashConses.empty (c : Cluster) : ({} : Registry).HashConses c where
  sound := Sound.empty c
  closed := by
    rintro id ⟨d, hd⟩
    rw [find?_empty] at hd
    cases hd

theorem HashConses.find?_digest (h : r.HashConses c) (hid : r.Represents id) :
    r.find? (c.digest id) = some id := by
  obtain ⟨d, hd⟩ := hid
  rw [(h.sound hd).2.1]
  exact hd

theorem HashConses.lt_size (h : r.HashConses c) (hid : r.Represents id) : id < c.size :=
  (h.sound (h.find?_digest hid)).1

theorem HashConses.valid (h : r.HashConses c) (hid : r.Represents id) : c.Valid id :=
  (h.sound (h.find?_digest hid)).2.2

theorem HashConses.holds (h : r.HashConses c) (hid : r.Represents id) : r.holds c id = true := by
  rw [Registry.holds, h.find?_digest hid]
  exact beq_self_eq_true _

theorem represents_of_holds (h : r.holds c id = true) : r.Represents id :=
  ⟨c.digest id, by simpa [Registry.holds] using h⟩

/-- Registered nodes of one digest are one node. -/
theorem HashConses.eq_of_digest_eq (h : r.HashConses c) (hid : r.Represents id) (hj : r.Represents j)
    (hdigest : c.digest id = c.digest j) : id = j := by
  have hfind := h.find?_digest hj
  rw [← hdigest, h.find?_digest hid] at hfind
  exact Option.some.inj hfind

theorem HashConses.mono (h : r.HashConses c) (hc : c.Extends c') : r.HashConses c' where
  sound := Sound.mono h.sound hc
  closed := fun hid j hj => by
    rw [hc.inputs_eq (h.lt_size hid)] at hj
    exact h.closed hid j hj

/-- A valid node over registered inputs may be registered under its digest. -/
theorem HashConses.add (h : r.HashConses c) (hid : id < c.size) (hcheck : c.check id = .ok ())
    (hinputs : ∀ j ∈ c.inputs id, r.Represents j) (hnew : r.find? (c.digest id) = none) :
    (r.add (c.digest id) id).HashConses c where
  sound := by
    intro d j hd
    rw [find?_add] at hd
    split at hd
    · next heq =>
      cases hd
      exact ⟨hid, heq, .node (fun j hj => h.valid (hinputs j hj)) hcheck⟩
    · exact h.sound hd
  closed := by
    rintro j ⟨d, hd⟩ k hk
    apply (extends_add hnew id).represents
    rw [find?_add] at hd
    split at hd
    · cases hd
      exact hinputs k hk
    · exact h.closed ⟨d, hd⟩ k hk

/-- Registry and session have grown, and what is registered is hash-consed. -/
structure Grown (r : Registry) (c : Cluster) (r' : Registry) (c' : Cluster) : Prop where
  hashConses : r'.HashConses c'
  registry : r.Extends r'
  session : c.Extends c'

theorem Grown.trans {r₁ r₂ r₃ : Registry} {c₁ c₂ c₃ : Cluster} (h : Grown r₁ c₁ r₂ c₂)
    (h' : Grown r₂ c₂ r₃ c₃) : Grown r₁ c₁ r₃ c₃ :=
  ⟨h'.hashConses, h.registry.trans h'.registry, h.session.trans h'.session⟩

end Registry

/-! ## Requests that keep the registry hash-consed -/

namespace Registering

open Registry

/-- The request keeps the registry hash-consed and what is registered, whether it succeeds or fails, and
has the postcondition if it succeeds. -/
def Conses {α : Type} (x : Registering α) (r : Registry) (c : Cluster)
    (Q : α → Registry → Cluster → Prop) : Prop :=
  r.HashConses c → Grown r c ((x.run.run r).run c).1.2 ((x.run.run r).run c).2 ∧
    ∀ a r' c', x.Runs r c a r' c' → Q a r' c'

variable {α β : Type} {r r' : Registry} {c c' : Cluster} {Q : α → Registry → Cluster → Prop}

theorem Conses.runs {x : Registering α} (hx : x.Conses r c Q) (hr : r.HashConses c) {a : α}
    (h : x.Runs r c a r' c') : Grown r c r' c' ∧ Q a r' c' := by
  obtain ⟨hgrown, hpost⟩ := hx hr
  rw [show (x.run.run r).run c = ((.ok a, r'), c') from h] at hgrown
  exact ⟨hgrown, hpost a r' c' h⟩

theorem conses_pure {a : α} (h : Q a r c) : (pure a : Registering α).Conses r c Q := by
  refine fun hr => ⟨⟨hr, .refl r, .refl c⟩, fun b r' c' hb => ?_⟩
  obtain ⟨rfl, rfl, rfl⟩ := runs_pure.mp hb
  exact h

theorem conses_throw (e : PlanError) : (throw e : Registering α).Conses r c Q :=
  fun hr => ⟨⟨hr, .refl r, .refl c⟩, fun _ _ _ h => absurd h runs_throw⟩

theorem conses_read {f : Registry → Cluster → α} (h : Q (f r c) r c) : (read f).Conses r c Q := by
  refine fun hr => ⟨⟨hr, .refl r, .refl c⟩, fun b r' c' hb => ?_⟩
  obtain ⟨rfl, rfl, rfl⟩ := runs_read.mp hb
  exact h

/-- A request to the session alone that adds nodes at most. -/
theorem conses_liftM {x : Planning α} (hx : x.Grows) (h : ∀ a c', x.Runs c a c' → Q a r c') :
    (liftM x : Registering α).Conses r c Q := by
  refine fun hr => ⟨⟨hr.mono (hx c), .refl r, hx c⟩, fun a r' c' hrun => ?_⟩
  obtain ⟨ha, rfl⟩ := runs_liftM.mp hrun
  exact h a c' ha

theorem conses_modify {f : Registry → Registry} {Q : PUnit → Registry → Cluster → Prop}
    (hf : r.HashConses c → (f r).HashConses c ∧ r.Extends (f r)) (h : Q ⟨⟩ (f r) c) :
    (modifyThe Registry f : Registering PUnit).Conses r c Q := by
  refine fun hr => ⟨⟨(hf hr).1, (hf hr).2, .refl c⟩, fun u r' c' hu => ?_⟩
  obtain ⟨rfl, rfl⟩ := runs_modify.mp hu
  exact h

theorem Conses.bind {x : Registering α} {f : α → Registering β} {Q' : β → Registry → Cluster → Prop}
    (hx : x.Conses r c Q)
    (hf : ∀ a r₁ c₁, Grown r c r₁ c₁ → Q a r₁ c₁ → (f a).Conses r₁ c₁ Q') : (x >>= f).Conses r c Q' := by
  intro hr
  obtain ⟨hgrown, hpost⟩ := hx hr
  refine ⟨?_, fun b r' c' hb => ?_⟩
  · simp only [ExceptT.run_bind, StateT.run_bind]
    rcases h : (x.run.run r).run c with ⟨⟨e | a, r₁⟩, c₁⟩
    · rw [h] at hgrown
      exact hgrown
    · rw [h] at hgrown
      exact hgrown.trans (hf a r₁ c₁ hgrown (hpost a r₁ c₁ h) hgrown.hashConses).1
  · obtain ⟨a, r₁, c₁, ha, hb⟩ := runs_bind.mp hb
    obtain ⟨hgrown₁, ha⟩ := hx.runs hr ha
    exact (hf a r₁ c₁ hgrown₁ ha hgrown₁.hashConses).2 b r' c' hb

/-- Nodes that are registered one after the other are registered in the end. -/
theorem conses_mapM {f : α → Registering NodeId} (as : List α)
    (hf : ∀ a ∈ as, ∀ r' c', c.Extends c' → (f a).Conses r' c' fun id r' _ => r'.Represents id) :
    (as.mapM f).Conses r c fun ids r' _ => ∀ id ∈ ids, r'.Represents id := by
  induction as generalizing r c with
  | nil => exact conses_pure (by simp)
  | cons a as ih =>
    rw [List.mapM_cons]
    refine (hf a List.mem_cons_self r c (.refl c)).bind fun id r₁ c₁ hgrown hid => ?_
    refine (ih fun b hb r' c' hc => hf b (List.mem_cons_of_mem _ hb) r' c'
      (hgrown.session.trans hc)).bind fun ids r₂ c₂ hgrown₂ hids => conses_pure ?_
    rw [List.forall_mem_cons]
    exact ⟨hgrown₂.registry.represents hid, hids⟩

end Registering

namespace Registry

open Registering Cluster

variable {r r' : Registry} {c c' : Cluster} {id : NodeId}

/-- A valid node over registered inputs is represented by a registered node. -/
theorem conses_represent (hid : id < c.size) (hcheck : c.check id = .ok ())
    (hinputs : ∀ j ∈ c.inputs id, r.Represents j) :
    (represent id).Conses r c fun result r' _ => r'.Represents result := by
  refine Conses.bind (Q := fun digest r₁ c₁ => digest = c.digest id ∧ r = r₁ ∧ c = c₁)
    (conses_read ⟨rfl, rfl, rfl⟩) ?_
  rintro _ _ _ - ⟨rfl, rfl, rfl⟩
  refine Conses.bind (Q := fun o r₂ c₂ => o = r.find? (c.digest id) ∧ r = r₂ ∧ c = c₂)
    (conses_read ⟨rfl, rfl, rfl⟩) ?_
  rintro o _ _ - ⟨ho, rfl, rfl⟩
  cases o with
  | some registered => exact conses_pure ⟨_, ho.symm⟩
  | none =>
    refine Conses.bind (Q := fun _ r' _ => r'.Represents id) (conses_modify (fun hr => ?_) ?_)
      fun _ _ _ _ hrepresents => conses_pure hrepresents
    · exact ⟨hr.add hid hcheck hinputs ho.symm, extends_add ho.symm id⟩
    · exact ⟨_, by rw [find?_add, if_pos rfl]⟩

theorem conses_registerInput {input : NodeId}
    (h : (ensureRegistered input).Conses r c fun result r' _ => r'.Represents result) :
    (registerInput input).Conses r c fun result r' _ => r'.Represents result := by
  refine h.bind fun registered r₁ c₁ _ hregistered => ?_
  refine Conses.bind (Q := fun _ r₂ _ => r₂.Represents registered)
    (conses_liftM (grows_checkSameType _ _) fun _ _ _ => hregistered) ?_
  exact fun _ _ _ _ hregistered => conses_pure hregistered

/-- Registering returns a registered node. -/
theorem conses_ensureRegistered (hid : id < c.size) :
    (ensureRegistered id).Conses r c fun result r' _ => r'.Represents result := by
  -- on the number of the node: its inputs have smaller numbers
  induction id using Nat.strongRecOn generalizing r c with
  | ind id ih =>
    rw [ensureRegistered]
    refine Conses.bind (Q := fun held r₁ c₁ => held = r.holds c id ∧ r = r₁ ∧ c = c₁)
      (conses_read ⟨rfl, rfl, rfl⟩) ?_
    rintro held _ _ - ⟨hheld, rfl, rfl⟩
    split
    · next hb => exact conses_pure (represents_of_holds (hheld ▸ hb))
    · refine Conses.bind (Q := fun below r₁ c₁ => r = r₁ ∧ c = c₁) (conses_read ⟨rfl, rfl⟩) ?_
      rintro below _ _ - ⟨rfl, rfl⟩
      refine (conses_mapM below fun j _ r' c' hc =>
        conses_registerInput (ih j.1 j.2 (hc.lt_size (Nat.lt_trans j.2 hid)))).bind
        fun inputs r₁ c₁ hgrown hinputs => ?_
      refine Conses.bind (Q := fun copied r₂ c₂ => Copied c₁ id inputs copied c₂ ∧ r₁ = r₂)
        (conses_liftM (grows_copyOver _ _) fun copied c₂ hcopy => ?_) ?_
      · exact ⟨runs_copyOver (hgrown.session.lt_size hid) hcopy, rfl⟩
      rintro copied _ c₂ - ⟨hcopied, rfl⟩
      refine Conses.bind (Q := fun _ r₃ c₃ => c₂.check copied = .ok () ∧ r₁ = r₃ ∧ c₂ = c₃)
        (conses_liftM (Planning.grows_inspect _) fun _ c₃ hrun => ?_) ?_
      · obtain ⟨hcheck, rfl⟩ := Planning.runs_inspect.mp hrun
        exact ⟨hcheck, rfl, rfl⟩
      rintro _ _ _ - ⟨hcheck, rfl, rfl⟩
      refine conses_represent hcopied.lt_size hcheck ?_
      rw [hcopied.inputs_eq]
      exact hinputs

/-! ## Registering what is registered -/

theorem runs_ensureRegistered_of_holds (h : r.holds c id = true) :
    (ensureRegistered id).Runs r c id r c := by
  rw [ensureRegistered, runs_bind]
  refine ⟨true, r, c, runs_read.mpr ⟨h, rfl, rfl⟩, ?_⟩
  rw [if_pos rfl]
  exact runs_pure.mpr ⟨rfl, rfl, rfl⟩

/-- Registered nodes of one structure are one node. -/
theorem HashConses.eq_of_sameStructure (h : r.HashConses c) {n i : NodeId} (hn : r.Represents n)
    (hi : r.Represents i) (hsame : c.SameStructure n i) : n = i := by
  -- on the number of the first node: the inputs are one by one the same nodes
  induction n using Nat.strongRecOn generalizing i with
  | ind n ih =>
    cases hsame with
    | node hsub hkind hattributes htraits hinputs =>
      have heq : List.Forall₂ Eq (c.inputs n) (c.inputs i) :=
        Outcome.forall₂_imp_of_mem (fun k hk l hl hkl =>
          ih k (c.inputs_lt hk) (h.closed hn k hk) (h.closed hi l hl) hkl) hinputs
      exact h.eq_of_digest_eq hn hi
        (digest_congr hsub hkind hattributes htraits (List.forall₂_eq_eq_eq ▸ heq))

theorem runs_represent_of_digest_eq (h : r.HashConses c) {i result : NodeId} (hi : r.Represents i)
    (hdigest : c.digest id = c.digest i) (hrun : (represent id).Runs r c result r' c') : result = i := by
  simp only [represent, runs_bind, runs_read] at hrun
  obtain ⟨d, _, _, ⟨rfl, rfl, rfl⟩, o, _, _, ⟨ho, rfl, rfl⟩, hrun⟩ := hrun
  rw [hdigest, h.find?_digest hi] at ho
  subst ho
  exact (runs_pure.mp hrun).1.symm

/-- Registering a node leads to the registered node of its structure. -/
def Finds (n : NodeId) : Prop :=
  ∀ {r r' : Registry} {c c' : Cluster} {i result : NodeId}, r.HashConses c → n < c.size →
    r.Represents i → c.SameStructure n i → (ensureRegistered n).Runs r c result r' c' → result = i

theorem registerInputs_finds {id : NodeId} (below : List { j : NodeId // j < id })
    (ih : ∀ j < id, Finds j) {targets results : List NodeId} (hr : r.HashConses c) (hid : id < c.size)
    (htargets : ∀ i ∈ targets, r.Represents i)
    (hsame : List.Forall₂ c.SameStructure (below.map Subtype.val) targets)
    (h : (below.mapM fun j => registerInput j.1).Runs r c results r' c') : results = targets := by
  induction below generalizing r c targets results with
  | nil =>
    rw [List.map_nil, List.forall₂_nil_left_iff] at hsame
    rw [List.mapM_nil] at h
    rw [hsame, ← (runs_pure.mp h).1]
  | cons j below ihbelow =>
    rw [List.map_cons, List.forall₂_cons_left_iff] at hsame
    obtain ⟨i, targets, hji, hsame, rfl⟩ := hsame
    obtain ⟨hi, htargets⟩ := List.forall_mem_cons.mp htargets
    simp only [List.mapM_cons, runs_bind, runs_pure] at h
    obtain ⟨result, r₁, c₁, hinput, results, _, _, hrest, rfl, rfl, rfl⟩ := h
    have hj : j.1 < c.size := Nat.lt_trans j.2 hid
    obtain ⟨hgrown, -⟩ := (conses_registerInput (conses_ensureRegistered hj)).runs hr hinput
    have hresult : result = i := by
      simp only [registerInput, runs_bind, runs_pure] at hinput
      obtain ⟨_, _, _, hensure, _, _, _, -, rfl, -, -⟩ := hinput
      exact ih j.1 j.2 hr hj hi hji hensure
    have hrest := ihbelow hgrown.hashConses (hgrown.session.lt_size hid)
      (fun k hk => hgrown.registry.represents (htargets k hk))
      (Outcome.forall₂_imp_of_mem (fun k hk l hl hkl => ?_) hsame) hrest
    · rw [hresult, hrest]
    · obtain ⟨j', -, rfl⟩ := List.mem_map.mp hk
      exact hkl.mono hgrown.session (Nat.lt_trans j'.2 hid) (hr.lt_size (htargets l hl))

theorem ensureRegistered_finds (n : NodeId) : Finds n := by
  -- on the number of the node: its inputs have smaller numbers
  induction n using Nat.strongRecOn with
  | ind n ih =>
    intro r r' c c' i result hr hn hi hsame h
    rw [ensureRegistered] at h
    simp only [runs_bind, runs_read] at h
    obtain ⟨held, _, _, ⟨hheld, rfl, rfl⟩, h⟩ := h
    split at h
    · next hb =>
      obtain ⟨rfl, -, -⟩ := runs_pure.mp h
      exact hr.eq_of_sameStructure (represents_of_holds (hheld.trans hb)) hi hsame
    · simp only [runs_bind, runs_read, runs_liftM] at h
      obtain ⟨below, _, _, ⟨rfl, rfl, rfl⟩, inputs, r₁, c₁, hinputs, copied, _, c₂, ⟨hcopy, rfl⟩,
        u, _, c₃, ⟨hcheck, rfl⟩, h⟩ := h
      obtain ⟨-, rfl⟩ := Planning.runs_inspect.mp hcheck
      replace hinputs : ((c.inputsBelow n).mapM fun j => registerInput j.1).Runs r c inputs r₁ c₁ :=
        hinputs
      obtain ⟨hgrown, -⟩ := (conses_mapM (c.inputsBelow n) fun j _ r' c' hc => conses_registerInput
        (conses_ensureRegistered (hc.lt_size (Nat.lt_trans j.2 hn)))).runs hr hinputs
      have hcopied := runs_copyOver (hgrown.session.lt_size hn) hcopy
      have htraitsEq := traits_eq_of_runs_copyOver hcopy
      have hgrow := hgrown.session.trans hcopied.grows
      have hr₂ := hgrown.hashConses.mono hcopied.grows
      have hi₁ := hgrown.registry.represents hi
      cases hsame with
      | node hsub hkind hattributes htraits hsameInputs =>
        have heq : inputs = c.inputs i := by
          refine registerInputs_finds _ ih hr hn (fun k hk => hr.closed hi k hk) ?_ hinputs
          rw [inputsBelow_map_val]
          exact hsameInputs
        refine runs_represent_of_digest_eq hr₂ hi₁ ?_ h
        -- the copy is written like the registered node, over the same inputs
        have hlt : i < c.size := hr.lt_size hi
        have hop : c₂.operator copied = c.operator n :=
          hcopied.operator_eq.trans (hgrown.session.operator_eq hn)
        refine digest_congr ?_ ?_ ?_ ?_ ?_
        · rw [hop, hsub]
        · exact ((congrArg Operator.kind hop).trans hkind).trans (hgrow.kind_eq hlt).symm
        · rw [hop, hgrow.operator_eq hlt, hattributes]
        · rw [htraitsEq, hgrown.session.traits_eq hn, hgrow.traits_eq hlt, htraits]
        · rw [hcopied.inputs_eq, heq, hgrow.inputs_eq hlt]

end Registry

namespace Cluster

/-- Nodes that exist are related in any way that does not tell them apart. -/
theorem congruence_true (c : Cluster) : c.Congruence fun _ _ => True :=
  ⟨fun _ => trivial, fun _ _ => trivial, fun _ _ _ _ _ => trivial⟩

theorem lt_size_of_replace {root target replacement result : NodeId} {c c' : Cluster}
    (hroot : root < c.size) (hreplacement : replacement < c.size)
    (h : (replace root target replacement).Runs c result c') : result < c'.size :=
  (replace_related (congruence_true c') hroot hreplacement trivial h (.refl c')).1

end Cluster

/-! ## Planners -/

namespace Planner

open Registering Registry Cluster

variable {r r' : Registry} {c c' : Cluster}

theorem conses_apply (rule : Rule) {id root : NodeId} (hid : id < c.size) (hroot : root < c.size) :
    (apply rule id root).Conses r c fun o r' _ => ∀ changed, o = some changed → r'.Represents changed := by
  unfold apply
  refine Conses.bind (Q := fun a r₁ c₁ => a = c ∧ r = r₁ ∧ c = c₁) (conses_read ⟨rfl, rfl, rfl⟩) ?_
  rintro _ _ _ - ⟨rfl, rfl, rfl⟩
  split
  · exact conses_pure nofun
  · next haccepts =>
    refine Conses.bind (Q := fun o _ c₁ => ∀ offered, o = some offered → offered < c₁.size)
      (conses_liftM (Rule.grows_offer rule id) fun o c₁ hoffer offered ho => ?_) ?_
    · rw [ho] at hoffer
      exact (rule.offered_of_runs hid (by simpa using haccepts) hoffer (.refl c₁)).1
    intro o r₁ c₁ hgrown₁ hoffered
    cases o with
    | none => exact conses_pure nofun
    | some offered =>
      refine (conses_ensureRegistered (hoffered offered rfl)).bind fun registered r₂ c₂ hgrown₂ hreg => ?_
      split
      · exact conses_pure nofun
      · have hroot₂ := hgrown₂.session.lt_size (hgrown₁.session.lt_size hroot)
        refine Conses.bind (Q := fun replaced _ c₃ => replaced < c₃.size)
          (conses_liftM (grows_replace _ _ _) fun replaced c₃ hreplace => ?_) ?_
        · exact lt_size_of_replace hroot₂ (hgrown₂.hashConses.lt_size hreg) hreplace
        intro replaced r₃ c₃ _ hreplaced
        refine (conses_ensureRegistered hreplaced).bind fun changed r₄ c₄ _ hchanged => conses_pure ?_
        rintro _ ⟨⟩
        exact hchanged

theorem conses_applyFirst {root : NodeId} (attempts : List (NodeId × Rule)) (hroot : root < c.size)
    (hattempts : ∀ a ∈ attempts, a.1 < c.size) :
    (applyFirst root attempts).Conses r c fun o r' _ =>
      ∀ changed, o = some changed → r'.Represents changed := by
  induction attempts generalizing r c with
  | nil => exact conses_pure nofun
  | cons attempt attempts ih =>
    obtain ⟨id, rule⟩ := attempt
    obtain ⟨hid, hattempts⟩ := List.forall_mem_cons.mp hattempts
    refine (conses_apply rule hid hroot).bind fun o r₁ c₁ hgrown ho => ?_
    cases o with
    | some changed => exact conses_pure ho
    | none =>
      exact ih (hgrown.session.lt_size hroot) fun a ha => hgrown.session.lt_size (hattempts a ha)

theorem attempts_lt_size (p : Planner) {root : NodeId} (hroot : root < c.size) :
    ∀ a ∈ p.attempts c root, a.1 < c.size := by
  intro a ha
  obtain ⟨id, hid, ha⟩ := List.mem_flatMap.mp ha
  obtain ⟨rule, -, rfl⟩ := List.mem_map.mp ha
  exact ((mem_nodesIn_iff hroot p.order).mp hid).lt_size hroot

theorem conses_iterate (p : Planner) (limit : Nat) {root : NodeId} (hroot : root < c.size)
    (hregistered : r.Represents root) :
    (p.iterate limit root).Conses r c fun result r' _ => r'.Represents result := by
  induction limit generalizing r c root with
  | zero => exact conses_pure hregistered
  | succ limit ih =>
    refine Conses.bind (Q := fun a r₁ c₁ => a = c ∧ r = r₁ ∧ c = c₁) (conses_read ⟨rfl, rfl, rfl⟩) ?_
    rintro _ _ _ - ⟨rfl, rfl, rfl⟩
    refine (conses_applyFirst _ hroot (p.attempts_lt_size hroot)).bind fun o r₁ c₁ hgrown ho => ?_
    cases o with
    | none => exact conses_pure (hgrown.registry.represents hregistered)
    | some changed =>
      exact ih (hgrown.hashConses.lt_size (ho changed rfl)) (ho changed rfl)

theorem conses_optimize (p : Planner) {id : NodeId} (hid : id < c.size) :
    (p.optimize id).Conses r c fun result r' _ => r'.Represents result := by
  refine (conses_ensureRegistered hid).bind fun registered r₁ c₁ hgrown hregistered => ?_
  exact conses_iterate p p.limit (hgrown.hashConses.lt_size hregistered) hregistered

end Planner

end QueryPlan
