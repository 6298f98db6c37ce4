import Mathlib.Data.List.Forall2
import Mathlib.Tactic.Common
import QueryPlan.Proofs.Session.Growth
/-!
# Rebuilding relates a plan to its copy

A `Congruence` is a relation between nodes that holds of a node and every node with the same
operator over related inputs: having the same rows is one. A rebuild that offers related nodes only
returns a related node, however the plan shares its inputs. The relation is read in the session in
which everything has ended, so that it need not be carried from one session to the next.
-/
namespace QueryPlan

namespace Cluster

/-- A relation of a node to what may stand for it, closed under copying over related inputs. -/
structure Congruence (c : Cluster) (E : NodeId → NodeId → Prop) : Prop where
  refl : ∀ id, E id id
  trans : ∀ {i j k}, E i j → E j k → E i k
  node : ∀ {i j}, i < c.size → j < c.size → c.operator j = c.operator i →
    (c.operator i).isSubset = false → List.Forall₂ E (c.inputs i) (c.inputs j) → E i j

variable {C : Cluster} {E : NodeId → NodeId → Prop}

/-- A copy over related inputs is related. -/
theorem Congruence.copied (hE : C.Congruence E) {c c' : Cluster} {id id' : NodeId}
    {inputs : List NodeId} (h : Copied c id inputs id' c') (hid : id < c.size)
    (hC : c'.Extends C) (hin : List.Forall₂ E (c.inputs id) inputs) : E id id' := by
  have hidC : id < C.size := hC.lt_size (h.grows.lt_size hid)
  rcases h.eq_or_new with rfl | ⟨-, hsub⟩
  · exact hE.refl _
  · apply hE.node hidC (hC.lt_size h.lt_size)
    · rw [hC.operator_eq h.lt_size, h.operator_eq, (h.grows.trans hC).operator_eq hid]
    · rw [(h.grows.trans hC).operator_eq hid]
      exact hsub
    · rw [hC.inputs_eq h.lt_size, h.inputs_eq, (h.grows.trans hC).inputs_eq hid]
      exact hin

/-- Every node on record is related to what stands for it, which exists. -/
def Recorded (E : NodeId → NodeId → Prop) (c : Cluster) (record : List Rebuilt) : Prop :=
  ∀ r ∈ record, r.result < c.size ∧ E r.before r.result

theorem Recorded.mono {c c' : Cluster} {record : List Rebuilt} (h : Recorded E c record)
    (hc : c.Extends c') : Recorded E c' record :=
  fun r hr => ⟨hc.lt_size (h r hr).1, (h r hr).2⟩

/-- What is offered in place of a node is related to it. `start` is the session in which the rebuild
begins. -/
def Offers (E : NodeId → NodeId → Prop) (start C : Cluster)
    (replacement : NodeId → Planning (Option NodeId)) : Prop :=
  ∀ {copied other : NodeId} {c c' : Cluster}, start.Extends c → copied < c.size →
    (replacement copied).Runs c (some other) c' → c'.Extends C → other < c'.size ∧ E copied other

theorem runs_checkSameType {before after : NodeId} {c c' : Cluster} {u : Unit}
    (h : (checkSameType before after).Runs c u c') :
    (c.rowType before).isCompatible (c.rowType after) = true ∧ c = c' := by
  obtain ⟨hok, rfl⟩ := Planning.runs_inspect.mp h
  refine ⟨?_, rfl⟩
  by_contra hne
  rw [if_neg hne] at hok
  cases hok

theorem settle_related (hE : C.Congruence E) {start c c' : Cluster} {copied result : NodeId}
    {replacement : NodeId → Planning (Option NodeId)} (hgrows : ∀ id, (replacement id).Grows)
    (hrep : Offers E start C replacement) (hstart : start.Extends c) (hcopied : copied < c.size)
    (h : (settle replacement copied).Runs c result c') (hC : c'.Extends C) :
    result < c'.size ∧ E copied result := by
  simp only [settle, Planning.runs_bind] at h
  obtain ⟨o, c₁, ho, h⟩ := h
  cases o with
  | none =>
    obtain ⟨rfl, rfl⟩ := Planning.runs_pure.mp h
    exact ⟨((hgrows _).runs ho).lt_size hcopied, hE.refl _⟩
  | some other =>
    simp only [Planning.runs_bind, Planning.runs_pure] at h
    obtain ⟨u, c₂, hcheck, rfl, rfl⟩ := h
    obtain ⟨-, rfl⟩ := runs_checkSameType hcheck
    exact hrep hstart hcopied ho hC

/-- What rebuilding a node does: nothing if the node is on record, and otherwise a copy over what stands
for its inputs, which is settled and put on record. -/
inductive RebuildStep (replacement : NodeId → Planning (Option NodeId)) (id : NodeId)
    (record : List Rebuilt) (c : Cluster) (result : NodeId) (record' : List Rebuilt) (c' : Cluster) :
    Prop
  | done (r : Rebuilt) (found : r ∈ record) (before : r.before = id) (settled : r.result = result)
      (state : record = record') (session : c = c')
  | copy (inputs : List NodeId) (record₁ : List Rebuilt) (c₁ : Cluster) (copied : NodeId) (c₂ : Cluster)
      (new : ∀ r ∈ record, r.before ≠ id)
      (below : (((c.inputsBelow id).mapM fun x => rebuildNode replacement x.1).run record).Runs c
        (inputs, record₁) c₁)
      (copies : (copyOver id inputs).Runs c₁ copied c₂)
      (settles : (settle replacement copied).Runs c₂ result c')
      (state : ⟨id, copied, result⟩ :: record₁ = record')

theorem runs_rebuildNode {replacement : NodeId → Planning (Option NodeId)} {id result : NodeId}
    {record record' : List Rebuilt} {c c' : Cluster}
    (h : ((rebuildNode replacement id).run record).Runs c (result, record') c') :
    RebuildStep replacement id record c result record' c' := by
  rw [rebuildNode] at h
  simp only [StateT.run_bind, StateT.run_get, pure_bind] at h
  split at h
  · next done hdone =>
    simp only [StateT.run_pure, Planning.runs_pure, Prod.mk.injEq] at h
    obtain ⟨⟨hresult, hrecord⟩, hc⟩ := h
    exact .done done (List.mem_of_find?_eq_some hdone) (by simpa using List.find?_some hdone) hresult
      hrecord hc
  · next hnone =>
    simp only [StateT.run_bind, Planning.runs_bind, Planning.runs_lift_run] at h
    obtain ⟨⟨below, _⟩, c₀, ⟨hbelow, hrecord₀⟩, ⟨inputs, record₁⟩, c₁, hinputs,
      ⟨copied, _⟩, c₂, ⟨hcopy, hrecord₁⟩, ⟨settled, _⟩, c₃, ⟨hsettle, hrecord₂⟩, h⟩ := h
    obtain ⟨rfl, rfl⟩ := Planning.runs_read.mp hbelow
    dsimp only at hrecord₀ hrecord₁ hrecord₂
    subst hrecord₀ hrecord₁ hrecord₂
    simp only [StateT.run_modify, StateT.run_pure, Planning.runs_pure, Prod.mk.injEq] at h
    obtain ⟨⟨_, _⟩, _, ⟨heq, rfl⟩, ⟨rfl, rfl⟩, rfl⟩ := h
    cases heq
    exact .copy inputs record₁ c₁ copied c₂ (by simpa using List.find?_eq_none.mp hnone) hinputs hcopy
      hsettle rfl

section

variable {start : Cluster} {replacement : NodeId → Planning (Option NodeId)} {R : NodeId → NodeId → Prop}

/-- Copying a node over related inputs, and settling what stands for the copy, leads to a related node.
`start` is the session in which the rebuild begins. -/
def StepsRelated (R : NodeId → NodeId → Prop) (start C : Cluster)
    (replacement : NodeId → Planning (Option NodeId)) : Prop :=
  ∀ {id copied result : NodeId} {inputs : List NodeId} {c c₁ c₂ : Cluster}, start.Extends c →
    id < c.size → List.Forall₂ R (c.inputs id) inputs → (copyOver id inputs).Runs c copied c₁ →
    (settle replacement copied).Runs c₁ result c₂ → c₂.Extends C → result < c₂.size ∧ R id result

/-- Rebuilding a node keeps the record and returns a related node. -/
def RebuildsRelated (R : NodeId → NodeId → Prop) (start C : Cluster)
    (replacement : NodeId → Planning (Option NodeId)) (id : NodeId) : Prop :=
  ∀ {record record' : List Rebuilt} {c c' : Cluster} {result : NodeId}, start.Extends c →
    id < c.size → Recorded R c record →
    ((rebuildNode replacement id).run record).Runs c (result, record') c' → c'.Extends C →
    Recorded R c' record' ∧ result < c'.size ∧ R id result

theorem rebuildInputs_related (hgrows : ∀ id, (replacement id).Grows) {id : NodeId}
    (below : List { j : NodeId // j < id })
    (ih : ∀ j, j < id → RebuildsRelated R start C replacement j)
    {record record' : List Rebuilt} {c c' : Cluster} {inputs : List NodeId}
    (hstart : start.Extends c) (hid : id < c.size) (hrec : Recorded R c record)
    (h : ((below.mapM fun x => rebuildNode replacement x.1).run record).Runs c
      (inputs, record') c') (hC : c'.Extends C) :
    Recorded R c' record' ∧ List.Forall₂ R (below.map Subtype.val) inputs := by
  induction below generalizing record c inputs with
  | nil =>
    simp only [List.mapM_nil, StateT.run_pure, Planning.runs_pure, Prod.mk.injEq] at h
    obtain ⟨⟨rfl, rfl⟩, rfl⟩ := h
    exact ⟨hrec, .nil⟩
  | cons j below ihbelow =>
    simp only [List.mapM_cons, StateT.run_bind, Planning.runs_bind, StateT.run_pure,
      Planning.runs_pure, Prod.mk.injEq] at h
    obtain ⟨⟨result, record₁⟩, c₁, hj, ⟨rest, record₂⟩, c₂, hrest, ⟨rfl, rfl⟩, rfl⟩ := h
    have hgrow₁ : c.Extends c₁ := (grows_rebuildNode hgrows j.1 record).runs hj
    have hgrow₂ : c₁.Extends c₂ :=
      (Planning.grows_mapM_run below (fun x _ s => grows_rebuildNode hgrows x.1 s) record₁).runs
        hrest
    obtain ⟨hrec₁, -, hrel⟩ :=
      ih j.1 j.2 hstart (Nat.lt_trans j.2 hid) hrec hj (hgrow₂.trans hC)
    obtain ⟨hrec₂, hrels⟩ :=
      ihbelow (hstart.trans hgrow₁) (hgrow₁.lt_size hid) hrec₁ hrest
    exact ⟨hrec₂, .cons hrel hrels⟩

/-- Rebuilding a node returns a related one. -/
theorem rebuildNode_related (hgrows : ∀ id, (replacement id).Grows)
    (hstep : StepsRelated R start C replacement) (id : NodeId) :
    RebuildsRelated R start C replacement id := by
  -- on the number of the node: its inputs have smaller numbers
  induction id using Nat.strongRecOn with
  | ind id ih =>
    intro record record' c c' result hstart hid hrec h hC
    cases runs_rebuildNode h with
    | done r hr hbefore hresult hrecord hc =>
      subst hbefore hresult hrecord hc
      obtain ⟨hlt, hrel⟩ := hrec r hr
      exact ⟨hrec, hlt, hrel⟩
    | copy inputs record₁ c₁ copied c₂ _ hinputs hcopy hsettle hrecord =>
      subst hrecord
      have hgrow₁ : c.Extends c₁ :=
        (Planning.grows_mapM_run _ (fun x _ s => grows_rebuildNode hgrows x.1 s) record).runs
          hinputs
      have hgrow₂ : c₁.Extends c₂ := (grows_copyOver id inputs).runs hcopy
      have hgrow₃ : c₂.Extends c' := (grows_settle hgrows copied).runs hsettle
      obtain ⟨hrec₁, hrels⟩ :=
        rebuildInputs_related hgrows _ ih hstart hid hrec hinputs ((hgrow₂.trans hgrow₃).trans hC)
      rw [inputsBelow_map_val, ← hgrow₁.inputs_eq hid] at hrels
      obtain ⟨hlt, hrel⟩ :=
        hstep (hstart.trans hgrow₁) (hgrow₁.lt_size hid) hrels hcopy hsettle hC
      exact ⟨List.forall_mem_cons.mpr ⟨⟨hlt, hrel⟩, hrec₁.mono (hgrow₂.trans hgrow₃)⟩, hlt, hrel⟩

/-- A rebuild that offers related nodes only takes related steps. -/
theorem stepsRelated_of_offers (hE : C.Congruence E) (hgrows : ∀ id, (replacement id).Grows)
    (hrep : Offers E start C replacement) : StepsRelated E start C replacement := by
  intro id copied result inputs c c₁ c₂ hstart hid hrels hcopy hsettle hC
  have hcopied := runs_copyOver hid hcopy
  have hgrow : c₁.Extends c₂ := (grows_settle hgrows copied).runs hsettle
  have hrel : E id copied := hE.copied hcopied hid (hgrow.trans hC) hrels
  obtain ⟨hlt, hsettled⟩ :=
    settle_related hE hgrows hrep (hstart.trans hcopied.grows) hcopied.lt_size hsettle hC
  exact ⟨hlt, hE.trans hrel hsettled⟩

/-- A replacement whose steps are related returns a related root. -/
theorem replace_steps {root target other result : NodeId} {c c' : Cluster} (hroot : root < c.size)
    (hstep : StepsRelated R c C fun id => pure (if id = target then some other else none))
    (h : (replace root target other).Runs c result c') (hC : c'.Extends C) :
    result < c'.size ∧ R root result := by
  simp only [replace, rebuild, Planning.runs_bind, Planning.runs_pure] at h
  obtain ⟨⟨result', record⟩, c₁, ⟨⟨result'', record'⟩, c₂, h, heq, rfl⟩, rfl, rfl⟩ := h
  cases heq
  exact (rebuildNode_related (fun _ => Planning.grows_pure _) hstep root (.refl c) hroot
    (by intro r hr; cases hr) h hC).2

end

/-- Replacing a node by a related one returns a related root. -/
theorem replace_related (hE : C.Congruence E) {root target replacement result : NodeId}
    {c c' : Cluster} (hroot : root < c.size) (hrep : replacement < c.size)
    (hrel : E target replacement) (h : (replace root target replacement).Runs c result c')
    (hC : c'.Extends C) : result < c'.size ∧ E root result := by
  have hoffers : Offers E c C
      (fun id => pure (if id = target then some replacement else none)) := by
    intro copied other c c' hstart _ hrun _
    obtain ⟨heq, rfl⟩ := Planning.runs_pure.mp hrun
    split at heq
    · next h =>
      cases heq
      exact ⟨hstart.lt_size hrep, h ▸ hrel⟩
    · cases heq
  exact replace_steps hroot
    (stepsRelated_of_offers hE (fun _ => Planning.grows_pure _) hoffers) h hC

end Cluster

end QueryPlan
