import QueryPlan.Proofs.Planner.Progress
import QueryPlan.Proofs.Planner.Weight
/-!
# Normalizing comes to an end

As long as a rule offers anything on a node of the plan the plan gets lighter, so with enough changes
allowed the planner stops at a plan on which every rule is idle. It has registered that plan node by node,
so it finds each node of it again.
-/
namespace QueryPlan

namespace Cluster

/-- The rule leaves the node as it is. -/
def Idle (c : Cluster) (rule : Rule) (id : NodeId) : Prop :=
  rule.accepts c id = false ∨ (rule.offer id).Runs c none c

variable {c c' : Cluster} {rule : Rule} {id root : NodeId}

theorem Idle.not_offers (h : c.Idle rule id) (haccepts : rule.accepts c id = true) {offered : NodeId} :
    ¬(rule.offer id).Runs c (some offered) c' := by
  intro hoffer
  rcases h with h | h
  · rw [haccepts] at h
    cases h
  · cases (h.unique hoffer).1

/-- Projections over filters only, none of them over another one or on all columns of its input. -/
structure Normalized (c : Cluster) (root : NodeId) : Prop where
  filter : ∀ id, c.InPlan root id → ∀ condition, c.operator id = .filter .none condition →
    ∀ j ∈ c.inputs id, ∀ columns, c.operator j ≠ .project .none columns
  project : ∀ id, c.InPlan root id → ∀ columns, c.operator id = .project .none columns →
    ∀ j ∈ c.inputs id, ∀ columns', c.operator j ≠ .project .none columns'
  identity : ∀ id, c.InPlan root id → ∀ columns, c.operator id = .project .none columns →
    ∀ j ∈ c.inputs id, Expr.areIdentity (columns.map Prod.fst) (c.arity j) = false

theorem IsNode.eq_of_mem {o : Operator} {i j : NodeId} (h : c.IsNode id o [i]) (hj : j ∈ c.inputs id) :
    j = i := by
  rw [h.inputs_eq] at hj
  exact List.mem_singleton.mp hj

/-- A plan on which the rules for normalizing are idle is normalized. -/
theorem normalized_of_idle (hroot : root < c.size) (hwell : c.WellTyped root)
    (h : ∀ id, c.InPlan root id → ∀ rule ∈ Rule.normalize, c.Idle rule id) : c.Normalized root where
  filter := by
    intro id hplan condition hop j hj columns hop'
    have hid := hplan.lt_size hroot
    obtain ⟨project, hnode⟩ := exists_isNode_one hid hop rfl
    obtain rfl := hnode.eq_of_mem hj
    obtain ⟨input, hproject⟩ := exists_isNode_one (inputs_lt_size hj) hop' rfl
    obtain ⟨offered, c', hoffer⟩ :=
      Rule.belowProjection_succeeds hnode hproject (hwell.inPlan hplan)
    exact (h id hplan .filterProjectTranspose (by simp [Rule.normalize])).not_offers
      ((Rule.accepts_filterProjectTranspose hid).mpr ⟨condition, columns, j, input, hnode, hproject⟩)
      hoffer
  project := by
    intro id hplan upper hop j hj lower hop'
    have hid := hplan.lt_size hroot
    obtain ⟨bottom, hnode⟩ := exists_isNode_one hid hop rfl
    obtain rfl := hnode.eq_of_mem hj
    obtain ⟨input, hbottom⟩ := exists_isNode_one (inputs_lt_size hj) hop' rfl
    obtain ⟨offered, c', hoffer⟩ :=
      Rule.projectionMerge_succeeds hnode hbottom (hwell.inPlan hplan)
    exact (h id hplan .projectMerge (by simp [Rule.normalize])).not_offers
      ((Rule.accepts_projectMerge hid).mpr ⟨upper, lower, j, input, hnode, hbottom⟩) hoffer
  identity := by
    intro id hplan columns hop j hj
    have hid := hplan.lt_size hroot
    obtain ⟨input, hnode⟩ := exists_isNode_one hid hop rfl
    obtain rfl := hnode.eq_of_mem hj
    by_contra hidentity
    have hoffer := Rule.removeIdentity_runs hnode
    rw [if_pos (by simpa using hidentity)] at hoffer
    exact (h id hplan .projectRemove (by simp [Rule.normalize])).not_offers
      ((Rule.accepts_projectRemove hid).mpr ⟨columns, j, hnode⟩) hoffer

end Cluster

/-! ## Registering a registered plan again -/

namespace Registry

open Registering Cluster

variable {R r : Registry} {c : Cluster} {id : NodeId}

theorem runs_copyOver_inputs (c : Cluster) (id : NodeId) :
    (copyOver id (c.inputs id)).Runs c id c := by
  simp only [copyOver, copy, Planning.runs_bind, Planning.runs_read]
  refine ⟨_, c, ⟨rfl, rfl⟩, _, c, ⟨rfl, rfl⟩, ?_⟩
  rw [if_pos ⟨rfl, rfl⟩]
  exact Planning.runs_pure.mpr ⟨rfl, rfl⟩

/-- Every registered plan may be registered in a registry that knows no other nodes of its digests: it is
found node by node, and no node is created. -/
def RegisteredAgain (R : Registry) (c : Cluster) (id : NodeId) : Prop :=
  ∀ {r : Registry}, r.Extends R → R.Represents id →
    ∃ r', (ensureRegistered id).Runs r c id r' c ∧ r'.Extends R

theorem registerInputs_again (below : List { j : NodeId // j < id })
    (ih : ∀ j < id, RegisteredAgain R c j) (hr : r.Extends R) (hbelow : ∀ j ∈ below, R.Represents j.1) :
    ∃ r', (below.mapM fun j => registerInput j.1).Runs r c (below.map Subtype.val) r' c ∧
      r'.Extends R := by
  induction below generalizing r with
  | nil => exact ⟨r, runs_pure.mpr ⟨rfl, rfl, rfl⟩, hr⟩
  | cons j below ihbelow =>
    obtain ⟨hj, hbelow⟩ := List.forall_mem_cons.mp hbelow
    obtain ⟨r₁, hensure, hr₁⟩ := ih j.1 j.2 hr hj
    obtain ⟨r₂, hrest, hr₂⟩ := ihbelow hr₁ hbelow
    refine ⟨r₂, ?_, hr₂⟩
    simp only [List.mapM_cons, runs_bind, runs_pure]
    refine ⟨j.1, r₁, c, ?_, below.map Subtype.val, r₂, c, hrest, rfl, rfl, rfl⟩
    simp only [registerInput, runs_bind, runs_pure, runs_liftM]
    refine ⟨j.1, r₁, c, hensure, (), r₁, c, ⟨Planning.runs_inspect.mpr ⟨?_, rfl⟩, rfl⟩, rfl, rfl, rfl⟩
    rw [if_pos (isCompatible_of_types_eq rfl)]

theorem represent_again (hR : R.HashConses c) (hr : r.Extends R) (hid : R.Represents id) :
    ∃ r', (represent id).Runs r c id r' c ∧ r'.Extends R := by
  have hfind := hR.find?_digest hid
  cases h : r.find? (c.digest id) with
  | some j =>
    have heq : j = id := Option.some.inj ((hr _ _ h).symm.trans hfind)
    refine ⟨r, ?_, hr⟩
    simp only [represent, runs_bind, runs_read]
    refine ⟨_, r, c, ⟨rfl, rfl, rfl⟩, _, r, c, ⟨h, rfl, rfl⟩, ?_⟩
    exact runs_pure.mpr ⟨heq, rfl, rfl⟩
  | none =>
    refine ⟨r.add (c.digest id) id, ?_, fun d j hj => ?_⟩
    · simp only [represent, runs_bind, runs_read]
      refine ⟨_, r, c, ⟨rfl, rfl, rfl⟩, _, r, c, ⟨h, rfl, rfl⟩, ?_⟩
      rw [runs_bind]
      exact ⟨⟨⟩, _, c, runs_modify.mpr ⟨rfl, rfl⟩, runs_pure.mpr ⟨rfl, rfl, rfl⟩⟩
    · rw [find?_add] at hj
      split at hj
      · next hd =>
        cases hj
        rw [← hd]
        exact hfind
      · exact hr d j hj

theorem registeredAgain (hR : R.HashConses c) (id : NodeId) : RegisteredAgain R c id := by
  -- on the number of the node: its inputs have smaller numbers
  induction id using Nat.strongRecOn with
  | ind id ih =>
    intro r hr hid
    cases hheld : r.holds c id with
    | true => exact ⟨r, runs_ensureRegistered_of_holds hheld, hr⟩
    | false =>
      have hbelow : ∀ j ∈ c.inputsBelow id, R.Represents j.1 := fun j hj =>
        hR.closed hid j.1 (inputsBelow_map_val c id ▸ List.mem_map_of_mem hj)
      obtain ⟨r₁, hinputs, hr₁⟩ := registerInputs_again (c.inputsBelow id) ih hr hbelow
      obtain ⟨r₂, hrepresent, hr₂⟩ := represent_again hR hr₁ hid
      rw [inputsBelow_map_val] at hinputs
      refine ⟨r₂, ?_, hr₂⟩
      rw [ensureRegistered]
      simp only [runs_bind, runs_read]
      refine ⟨_, r, c, ⟨hheld, rfl, rfl⟩, ?_⟩
      rw [if_neg Bool.false_ne_true]
      simp only [runs_bind, runs_read, runs_liftM]
      exact ⟨_, r, c, ⟨rfl, rfl, rfl⟩, c.inputs id, r₁, c, hinputs, id, r₁, c,
        ⟨runs_copyOver_inputs c id, rfl⟩, (), r₁, c,
        ⟨Planning.runs_inspect.mpr ⟨(hR.valid hid).check, rfl⟩, rfl⟩, hrepresent⟩

end Registry

/-! ## The loop comes to an end -/

namespace Planner

open Registering Registry Cluster

/-- In every session the rule offers lighter nodes only. -/
def Lightening (crossing : Crossing) (rule : Rule) : Prop :=
  ∀ C : Cluster, OffersRelated (C.Lightens crossing) C rule

variable {crossing : Crossing} {rule : Rule} {r r' : Registry} {c c' : Cluster} {id root : NodeId}

theorem runs_apply_of_idle (h : c.Idle rule id) : (apply rule id root).Runs r c none r c := by
  rw [apply_eq, runs_bind]
  refine ⟨c, r, c, runs_session.mpr ⟨rfl, rfl, rfl⟩, ?_⟩
  cases haccepts : rule.accepts c id with
  | false => exact runs_pure.mpr ⟨rfl, rfl, rfl⟩
  | true =>
    rcases h with h | h
    · rw [haccepts] at h
      cases h
    · rw [Bool.not_true, if_neg Bool.false_ne_true, runs_bind]
      exact ⟨none, r, c, runs_liftM.mpr ⟨h, rfl⟩, runs_pure.mpr ⟨rfl, rfl, rfl⟩⟩

theorem runs_applyFirst_of_idle {attempts : List (NodeId × Rule)} (h : ∀ a ∈ attempts, c.Idle a.2 a.1) :
    (applyFirst root attempts).Runs r c none r c := by
  induction attempts with
  | nil => exact runs_pure.mpr ⟨rfl, rfl, rfl⟩
  | cons attempt attempts ih =>
    obtain ⟨hattempt, hattempts⟩ := List.forall_mem_cons.mp h
    rw [applyFirst, runs_bind]
    exact ⟨none, r, c, runs_apply_of_idle hattempt, ih hattempts⟩

/-- What is offered replaces a node by a lighter one: it is not registered as the node itself. -/
theorem adopt_lightens {offered : NodeId} {o : Option NodeId} (hdigest : c'.DigestsIdentify)
    (hr : r.Sound c) (hroot : root < c.size) (hplan : c.InPlan root id) (hoffered : offered < c.size)
    (hlight : c'.Lightens crossing id offered) (h : (adopt id root offered).Runs r c o r' c') :
    ∃ changed, o = some changed ∧ c'.Lightens crossing root changed := by
  have hid := hplan.lt_size hroot
  have hE := sameWeight_congruence crossing c'
  unfold adopt at h
  rw [runs_bind] at h
  obtain ⟨registered, r₁, c₁, hregister, h⟩ := h
  have hgrow₁ := (grows_ensureRegistered offered).runs hregister
  split at h
  · next heq =>
    obtain ⟨rfl, rfl, rfl⟩ := runs_pure.mp h
    have hreg := ensureRegistered_registered hE hdigest offered hr hoffered hregister (.refl _)
    unfold Lightens at hlight
    rw [← hreg.related, heq] at hlight
    exact absurd hlight (Weight.not_lighter_self _)
  · simp only [runs_bind, runs_liftM, runs_pure] at h
    obtain ⟨replaced, _, c₂, ⟨hreplace, rfl⟩, changed, r₃, c₃, hchanged, rfl, rfl, rfl⟩ := h
    have hgrow₂ := (grows_replace root id registered).runs hreplace
    have hgrow₃ := (grows_ensureRegistered replaced).runs hchanged
    have hreg := ensureRegistered_registered hE hdigest offered hr hoffered hregister
      (hgrow₂.trans hgrow₃)
    have hroot₁ := hgrow₁.lt_size hroot
    have hreplaced := lt_size_of_replace hroot₁ hreg.lt_size hreplace
    have hlast := ensureRegistered_registered hE hdigest replaced (Sound.mono hreg.sound hgrow₂) hreplaced
      hchanged (.refl _)
    refine ⟨changed, rfl, ?_⟩
    have hspec := replace_replaced hroot₁ (hgrow₁.lt_size hid) hreg.lt_size hreplace hgrow₃
    have hgrow := (hgrow₁.trans hgrow₂).trans hgrow₃
    have hlighter : c₃.Lightens crossing root replaced := by
      refine (hspec.atMost ?_).2 ⟨id, (hgrow.inPlan_iff hroot).mpr hplan, rfl⟩
      rintro k rfl
      unfold Lightens
      rw [hreg.related]
      exact hlight
    unfold Lightens at hlighter ⊢
    rw [hlast.related]
    exact hlighter

/-- A rule leaves everything as it is on a node of a plan, or makes the plan lighter. -/
theorem apply_lightens {o : Option NodeId} (hdigest : c'.DigestsIdentify)
    (hrule : Lightening crossing rule) (hr : r.Sound c) (hroot : root < c.size) (hwell : c.WellTyped root)
    (hplan : c.InPlan root id) (h : (apply rule id root).Runs r c o r' c') :
    o = none ∧ c.Idle rule id ∧ r' = r ∧ c' = c ∨
      ∃ changed, o = some changed ∧ c'.Lightens crossing root changed := by
  have hid := hplan.lt_size hroot
  rw [apply_eq, runs_bind] at h
  obtain ⟨_, _, _, hsession, h⟩ := h
  obtain ⟨rfl, rfl, rfl⟩ := runs_session.mp hsession
  cases haccepts : rule.accepts c id with
  | false =>
    rw [haccepts] at h
    obtain ⟨rfl, rfl, rfl⟩ := runs_pure.mp h
    exact .inl ⟨rfl, .inl haccepts, rfl, rfl⟩
  | true =>
    rw [haccepts, Bool.not_true, if_neg Bool.false_ne_true, runs_bind] at h
    obtain ⟨offer, _, c₁, hoffer, h⟩ := h
    obtain ⟨hofferRun, rfl⟩ := runs_liftM.mp hoffer
    cases offer with
    | none =>
      obtain ⟨rfl, rfl, rfl⟩ := runs_pure.mp h
      rcases rule.offer_decides hid (hwell.inPlan hplan) haccepts with hidle | ⟨offered, c₂, hsome⟩
      · obtain ⟨-, rfl⟩ := hidle.unique hofferRun
        exact .inl ⟨rfl, .inr hidle, rfl, rfl⟩
      · cases (hsome.unique hofferRun).1
    | some offered =>
      have hgrow := (rule.grows_offer id).runs hofferRun
      have hgrow' := (grows_adopt id root offered).runs h
      obtain ⟨-, hlight⟩ := hrule c' hid (hwell.inPlan hplan).valid haccepts hofferRun hgrow'
      obtain ⟨hlt, -⟩ := hrule c₁ hid (hwell.inPlan hplan).valid haccepts hofferRun (.refl c₁)
      exact .inr (adopt_lightens hdigest (hr.mono hgrow) (hgrow.lt_size hroot)
        ((hgrow.inPlan_iff hroot).mpr hplan) hlt hlight h)

/-- Among several attempts all are idle, or one of them makes the plan lighter. -/
theorem applyFirst_lightens {attempts : List (NodeId × Rule)} {o : Option NodeId}
    (hdigest : c'.DigestsIdentify) (hr : r.Sound c) (hroot : root < c.size) (hwell : c.WellTyped root)
    (hattempts : ∀ a ∈ attempts, c.InPlan root a.1 ∧ Lightening crossing a.2)
    (h : (applyFirst root attempts).Runs r c o r' c') :
    o = none ∧ (∀ a ∈ attempts, c.Idle a.2 a.1) ∧ r' = r ∧ c' = c ∨
      ∃ changed, o = some changed ∧ c'.Lightens crossing root changed := by
  induction attempts with
  | nil =>
    obtain ⟨rfl, rfl, rfl⟩ := runs_pure.mp h
    exact .inl ⟨rfl, by simp, rfl, rfl⟩
  | cons attempt attempts ih =>
    obtain ⟨id, rule⟩ := attempt
    obtain ⟨⟨hplan, hrule⟩, hattempts⟩ := List.forall_mem_cons.mp hattempts
    rw [applyFirst, runs_bind] at h
    obtain ⟨o₁, r₁, c₁, happly, h⟩ := h
    cases o₁ with
    | some changed =>
      obtain ⟨rfl, rfl, rfl⟩ := runs_pure.mp h
      rcases apply_lightens hdigest hrule hr hroot hwell hplan happly with ⟨heq, -⟩ | hchanged
      · cases heq
      · exact .inr hchanged
    | none =>
      have hgrow := (grows_applyFirst root attempts).runs h
      rcases apply_lightens (hdigest.of_extends hgrow) hrule hr hroot hwell hplan happly with
        ⟨-, hidle, rfl, rfl⟩ | ⟨changed, heq, -⟩
      · rcases ih hattempts h with ⟨ho, hidles, hsame⟩ | hchanged
        · exact .inl ⟨ho, List.forall_mem_cons.mpr ⟨hidle, hidles⟩, hsame⟩
        · exact .inr hchanged
      · cases heq

theorem runs_iterate_succ {p : Planner} {limit : Nat} {result : NodeId} :
    (p.iterate (limit + 1) root).Runs r c result r' c' ↔ ∃ o r₁ c₁,
      (applyFirst root (p.attempts c root)).Runs r c o r₁ c₁ ∧
      (match o with
        | some changed => p.iterate limit changed
        | none => pure root).Runs r₁ c₁ result r' c' := by
  rw [iterate, runs_bind]
  constructor
  · rintro ⟨_, _, _, hsession, h⟩
    obtain ⟨rfl, rfl, rfl⟩ := runs_session.mp hsession
    exact runs_bind.mp h
  · intro h
    exact ⟨c, r, c, runs_session.mpr ⟨rfl, rfl, rfl⟩, runs_bind.mpr h⟩

theorem runs_iterate_of_idle (p : Planner) (h : ∀ a ∈ p.attempts c root, c.Idle a.2 a.1) (limit : Nat) :
    (p.iterate limit root).Runs r c root r c := by
  cases limit with
  | zero => exact runs_pure.mpr ⟨rfl, rfl, rfl⟩
  | succ limit =>
    exact runs_iterate_succ.mpr ⟨none, r, c, runs_applyFirst_of_idle h, runs_pure.mpr ⟨rfl, rfl, rfl⟩⟩

theorem leaves_iterate_succ {p : Planner} (limit : Nat) {changed : NodeId}
    (h : (applyFirst root (p.attempts c root)).Runs r c (some changed) r' c') :
    (p.iterate (limit + 1) root).leaves r c = (p.iterate limit changed).leaves r' c' := by
  rw [iterate, Runs.leaves_bind (runs_session.mpr ⟨rfl, rfl, rfl⟩), Runs.leaves_bind h]

theorem leaves_iterate_of_none {p : Planner} (limit : Nat)
    (h : (applyFirst root (p.attempts c root)).Runs r c none r' c') :
    (p.iterate (limit + 1) root).leaves r c = c' := by
  rw [iterate, Runs.leaves_bind (runs_session.mpr ⟨rfl, rfl, rfl⟩), Runs.leaves_bind h]
  rfl

/-- Every attempt is by a rule of the planner on a node of the plan, and each of these is made. -/
theorem mem_attempts_iff (p : Planner) (hroot : root < c.size) {a : NodeId × Rule} :
    a ∈ p.attempts c root ↔ c.InPlan root a.1 ∧ a.2 ∈ p.rules := by
  unfold attempts
  simp only [List.mem_flatMap, List.mem_map, mem_nodesIn_iff hroot]
  constructor
  · rintro ⟨id, hplan, rule, hrule, rfl⟩
    exact ⟨hplan, hrule⟩
  · rintro ⟨hplan, hrule⟩
    exact ⟨a.1, hplan, a.2, hrule, rfl⟩

/-- With enough changes allowed the planner stops at a plan on which its rules are idle, the same one for
every larger number. -/
theorem iterate_settles (p : Planner) (hrules : ∀ rule ∈ p.rules, Lightening crossing rule)
    (hr : r.Sound c) (hroot : root < c.size) (hwell : c.WellTyped root)
    (hregular : ∀ limit, ((p.iterate limit root).leaves r c).Regular) :
    ∃ bound result r' c', (∀ limit ≥ bound, (p.iterate limit root).Runs r c result r' c') ∧
      result < c'.size ∧ c'.WellTyped result ∧
      ∀ id, c'.InPlan result id → ∀ rule ∈ p.rules, c'.Idle rule id := by
  -- on the weight of the plan, which every change lowers
  generalize hweight : c.weight crossing root = w
  induction w using Weight.lighter_wf.induction generalizing r c root with
  | _ w ih =>
    obtain ⟨_, _, _, hone⟩ := p.succeeds_iterate 1 hr hroot hwell (hregular 1)
    obtain ⟨o, r₁, c₁, hfirst, hrest⟩ := runs_iterate_succ.mp hone
    have hregular₁ : c₁.Regular := by
      have hleft := hregular 1
      rw [hone.leaves_eq] at hleft
      cases o with
      | none =>
        obtain ⟨-, -, rfl⟩ := runs_pure.mp hrest
        exact hleft
      | some changed =>
        obtain ⟨-, -, rfl⟩ := runs_pure.mp hrest
        exact hleft
    have hattempts : ∀ a ∈ p.attempts c root, c.InPlan root a.1 ∧ Lightening crossing a.2 := fun a ha =>
      have hmem := (p.mem_attempts_iff hroot).mp ha
      ⟨hmem.1, hrules a.2 hmem.2⟩
    rcases applyFirst_lightens hregular₁.digests hr hroot hwell hattempts hfirst with
      ⟨rfl, hidle, rfl, rfl⟩ | ⟨changed, rfl, hlight⟩
    · refine ⟨0, root, r₁, c₁, fun limit _ => p.runs_iterate_of_idle hidle limit, hroot, hwell, ?_⟩
      exact fun id hplan rule hrule => hidle (id, rule) ((p.mem_attempts_iff hroot).mpr ⟨hplan, hrule⟩)
    · have hvalid : ∀ a ∈ p.attempts c root, a.1 < c.size ∧ c.Valid a.1 ∧
          OffersRelated c₁.KeepsTypes c₁ a.2 := fun a ha =>
        have hnode := p.attempts_wellTyped hroot hwell a ha
        ⟨hnode.1, hnode.2.valid, offersRelated_keepsTypes hregular₁.words a.2⟩
      have hreg := (applyFirst_changed (keepsTypes_congruence c₁) hregular₁.digests _ hr hroot hvalid
        hfirst (.refl c₁)).2 changed rfl
      have hgrow := (grows_applyFirst root _).runs hfirst
      have hlighter : (c₁.weight crossing changed).Lighter w := by
        rw [← hweight, ← hgrow.weight_eq hroot]
        exact hlight
      obtain ⟨bound, result, r', c', hruns, hresult⟩ := ih _ hlighter hreg.sound hreg.lt_size
        (hreg.related (hwell.mono hgrow hroot)).1
        (fun limit => leaves_iterate_succ limit hfirst ▸ hregular (limit + 1)) rfl
      refine ⟨bound + 1, result, r', c', fun limit hlimit => ?_, hresult⟩
      obtain ⟨limit, rfl⟩ := Nat.exists_eq_add_of_le' (Nat.le_trans (Nat.le_add_left 1 bound) hlimit)
      exact runs_iterate_succ.mpr
        ⟨some changed, r₁, c₁, hfirst, hruns limit (Nat.le_of_add_le_add_right hlimit)⟩

/-- The loop does not depend on what else the planner holds than its rules and the match order. -/
theorem iterate_congr (p q : Planner) (hrules : p.rules = q.rules) (horder : p.order = q.order)
    (limit : Nat) (root : NodeId) : p.iterate limit root = q.iterate limit root := by
  have hattempts : p.attempts = q.attempts := by
    funext c root
    rw [attempts, attempts, hrules, horder]
  induction limit generalizing root with
  | zero => rfl
  | succ limit ih =>
    rw [iterate, iterate, hattempts]
    simp only [ih]

/-- Planners that differ in the number of changes only are one planner that is told that number. -/
theorem optimize_new (rules : List Rule) (order : Option MatchOrder) (limit : Nat) (config : Config)
    (root : NodeId) : (new ⟨rules, order, some limit⟩ config).optimize root =
      (ensureRegistered root >>= (new ⟨rules, order, none⟩ config).iterate limit) := by
  have hiterate : (new ⟨rules, order, some limit⟩ config).iterate limit =
      (new ⟨rules, order, none⟩ config).iterate limit := by
    funext id
    apply iterate_congr <;> rfl
  rw [← hiterate]
  rfl

theorem succeeds_optimize (p : Planner) (hr : r.Sound c) (hroot : root < c.size)
    (hwell : c.WellTyped root) : (p.optimize root).Succeeds r c := by
  refine Succeeds.bind (fun _ => grows_iterate p p.limit _) (succeeds_ensureRegistered hr hroot hwell)
    fun registered r₁ c₁ hregister hregular => ?_
  have hgrow := (grows_ensureRegistered root).runs hregister
  have hreg := ensureRegistered_registered (keepsTypes_congruence c₁) hregular.digests root hr hroot
    hregister (.refl c₁)
  exact succeeds_iterate p p.limit hreg.sound hreg.lt_size (hreg.related (hwell.mono hgrow hroot)).1

/-- The rules of both sets make plans lighter. -/
theorem exists_lightening {rules : List Rule} (h : rules = Rule.normalize ∨ rules = Rule.leafJoin) :
    ∃ crossing, ∀ rule ∈ rules, Lightening crossing rule := by
  rcases h with rfl | rfl
  · exact ⟨.filters, fun rule hrule _ => offersLighter_normalize rule hrule⟩
  · exact ⟨.joins, fun rule hrule _ => offersLighter_leafJoin rule hrule⟩

end Planner

namespace Cluster

open Planner Registering Registry

variable {c c' : Cluster} {root : NodeId}

theorem leaves_optimize (program : Program) (root : NodeId) (c : Cluster) :
    (optimize program root).leaves c = ((Planner.new program c.config).optimize root).leaves {} c := rfl

theorem runs_optimize {program : Program} {result : NodeId} {r' : Registry}
    (h : ((Planner.new program c.config).optimize root).Runs {} c result r' c') :
    (optimize program root).Runs c result c' := by
  unfold optimize
  rw [Planning.runs_bind]
  exact ⟨c.config, c, Planning.runs_read.mpr ⟨rfl, rfl⟩, Planning.runs_registering.mpr ⟨r', h⟩⟩

/-- Normalizing a plan, or bringing it into leaf join form, comes to an end: from some number of changes on
the result is one plan, on every node of which every rule of the set is idle. Rules for normalizing leave
no filter over a projection and no projection over a projection or on all columns of its input. The plan
that is found is its own result, whatever the match order and the number of changes, and no node is
created. Sessions have columns that a machine word counts, and no two nodes that are written alike and have
different operators. -/
theorem optimize_settles {rules : List Rule} (hrules : rules = Rule.normalize ∨ rules = Rule.leafJoin)
    (order : Option MatchOrder) (hroot : root < c.size) (hwell : c.WellTyped root)
    (hdigest : ∀ limit, ((optimize ⟨rules, order, some limit⟩ root).leaves c).DigestsIdentify)
    (hwords : ∀ limit, ((optimize ⟨rules, order, some limit⟩ root).leaves c).FitsWord) :
    ∃ bound result c', (∀ limit ≥ bound, (optimize ⟨rules, order, some limit⟩ root).Runs c result c') ∧
      result < c'.size ∧ (∀ id, c'.InPlan result id → ∀ rule ∈ rules, c'.Idle rule id) ∧
      (rules = Rule.normalize → c'.Normalized result) ∧
      ∀ order' limit', (optimize ⟨rules, order', limit'⟩ result).Runs c' result c' := by
  obtain ⟨crossing, hlightening⟩ := exists_lightening hrules
  -- one planner for all limits, which only tell it how often to iterate
  let p := Planner.new ⟨rules, order, none⟩ c.config
  have hregular : ∀ limit, ((ensureRegistered root >>= p.iterate limit).leaves {} c).Regular := by
    intro limit
    rw [← optimize_new, ← leaves_optimize]
    exact ⟨hdigest limit, hwords limit⟩
  have hr : ({} : Registry).Sound c := Registry.Sound.empty c
  obtain ⟨_, _, _, hfirst⟩ := succeeds_optimize (Planner.new ⟨rules, order, some 0⟩ c.config) hr hroot hwell
    (by rw [optimize_new]; exact hregular 0)
  rw [optimize_new, runs_bind] at hfirst
  obtain ⟨registered, r₁, c₁, hregister, hzero⟩ := hfirst
  obtain ⟨rfl, rfl, rfl⟩ := runs_pure.mp hzero
  have hleaves : ∀ limit, ((p.iterate limit registered).leaves r₁ c₁).Regular := by
    intro limit
    rw [← hregister.leaves_bind]
    exact hregular limit
  have hgrow := (grows_ensureRegistered root).runs hregister
  have hreg := ensureRegistered_registered (keepsTypes_congruence c₁) (hleaves 0).digests root hr hroot
    hregister (.refl c₁)
  obtain ⟨bound, result, r', c', hruns, hresult, hwellResult, hidle⟩ := iterate_settles p hlightening
    hreg.sound hreg.lt_size (hreg.related (hwell.mono hgrow hroot)).1 hleaves
  have hrun : ∀ limit ≥ bound, (Planner.new ⟨rules, order, some limit⟩ c.config).optimize root
      |>.Runs {} c result r' c' := by
    intro limit hlimit
    rw [optimize_new, runs_bind]
    exact ⟨registered, r₁, c₁, hregister, hruns limit hlimit⟩
  refine ⟨bound, result, c', fun limit hlimit => runs_optimize (hrun limit hlimit), hresult, hidle, ?_, ?_⟩
  · rintro rfl
    exact normalized_of_idle hresult hwellResult hidle
  · intro order' limit'
    -- everything under the result is registered, so it is found again
    obtain ⟨hgrown, hrepresents⟩ := (conses_optimize _ hroot).runs (HashConses.empty c)
      (hrun bound (Nat.le_refl bound))
    obtain ⟨r'', hagain, -⟩ := registeredAgain hgrown.hashConses result (r := {})
      (fun d id hd => by rw [find?_empty] at hd; cases hd) hrepresents
    have hidles : ∀ a ∈ (Planner.new ⟨rules, order', limit'⟩ c'.config).attempts c' result,
        c'.Idle a.2 a.1 := fun a ha =>
      have hmem := (mem_attempts_iff _ hresult).mp ha
      hidle a.1 hmem.1 a.2 hmem.2
    exact runs_optimize (runs_bind.mpr ⟨result, r'', c', hagain, runs_iterate_of_idle _ hidles _⟩)

/-! ## A plan that settles after one change -/

/-- The column of a table, on which nothing is projected away. -/
def onlyColumn : Planning NodeId := do
  let scan ← createDefault (.scan .none { name := ["T"], rowType := ⟨[⟨"a", .bigint, true⟩]⟩ }) []
  createDefault (.project .none [(.column 0 .bigint, "a")]) [scan]

def columnSession : Cluster := onlyColumn.leaves (start default default default)

/-- The planner that normalizes that plan. -/
def columnPlanner : Planner := .new { rules := Rule.normalize } columnSession.config

/-- Registry and session after the plan was registered. -/
def columnRegistered : Registry × Cluster :=
  ((ensureRegistered 1).registers {} columnSession, (ensureRegistered 1).leaves {} columnSession)

/-- Registry and session after the projection was removed. -/
def columnRemoved : Registry × Cluster :=
  let (r, c) := columnRegistered
  let first := applyFirst 1 (columnPlanner.attempts c 1)
  (first.registers r c, first.leaves r c)

/-- The session after the planner has looked for another change. -/
def columnSettled : Cluster :=
  (applyFirst 0 (columnPlanner.attempts columnRemoved.2 0)).leaves columnRemoved.1 columnRemoved.2

theorem columnSettled_regular : columnSettled.Regular := by
  have h : ((List.range columnSettled.size).map columnSettled.digest).Nodup ∧ columnSettled.FitsWord := by
    decide +kernel
  exact ⟨.of_nodup h.1, h.2⟩

/-- Whatever number of changes is allowed, the planner leaves one of these sessions. -/
theorem columnPlanner_regular (limit : Nat) :
    ((optimize ⟨Rule.normalize, none, some limit⟩ 1).leaves columnSession).Regular := by
  have hregister : (ensureRegistered 1).Runs {} columnSession 1 columnRegistered.1 columnRegistered.2 :=
    Registering.runs_leaves (by decide +kernel)
  have hremoved : (applyFirst 1 (columnPlanner.attempts columnRegistered.2 1)).Runs columnRegistered.1
      columnRegistered.2 (some 0) columnRemoved.1 columnRemoved.2 :=
    Registering.runs_leaves (by decide +kernel)
  have hsettled := Registering.runs_leaves
    (x := applyFirst 0 (columnPlanner.attempts columnRemoved.2 0))
    (r := columnRemoved.1) (c := columnRemoved.2) (a := none) (by decide +kernel)
  have hgrowRemoved := (grows_applyFirst 1 _).runs hremoved
  have hgrowSettled : columnRemoved.2.Extends columnSettled := (grows_applyFirst 0 _).runs hsettled
  rw [leaves_optimize, optimize_new, hregister.leaves_bind]
  show ((columnPlanner.iterate limit 1).leaves _ _).Regular
  rcases limit with _ | _ | limit
  · exact columnSettled_regular.of_extends (hgrowRemoved.trans hgrowSettled)
  · rw [leaves_iterate_succ 0 hremoved]
    exact columnSettled_regular.of_extends hgrowSettled
  · rw [leaves_iterate_succ (limit + 1) hremoved, leaves_iterate_of_none limit hsettled]
    exact columnSettled_regular

/-- Normalizing that plan comes to an end. -/
theorem optimize_settles_onlyColumn : ∃ bound result c',
    (∀ limit ≥ bound, (optimize ⟨Rule.normalize, none, some limit⟩ 1).Runs columnSession result c') ∧
      c'.Normalized result := by
  have hwell : columnSession.WellTyped 1 := .of_all (by decide +kernel) (by decide +kernel)
  obtain ⟨bound, result, c', hruns, -, -, hnormalized, -⟩ := optimize_settles (.inl rfl) none
    (by decide +kernel : 1 < columnSession.size) hwell (fun limit => (columnPlanner_regular limit).digests)
    fun limit => (columnPlanner_regular limit).words
  exact ⟨bound, result, c', hruns, hnormalized rfl⟩

end Cluster

end QueryPlan
