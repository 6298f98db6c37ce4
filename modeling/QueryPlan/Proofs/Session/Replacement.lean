import QueryPlan.Proofs.Outcome
import QueryPlan.Proofs.Session.Congruence
import QueryPlan.Proofs.Session.Walks
/-!
# What replacing a node makes of a plan

Every use of the node is replaced, and every node above one is copied with its operator and its traits.
What is not above a use stays the same node.
-/
namespace QueryPlan.Cluster

/-- One node stands for every node that is hit. Other nodes are copied over what stands for their inputs,
and stay where these stay. -/
inductive Replaced (c : Cluster) (hit : NodeId → Prop) (other : NodeId) : NodeId → NodeId → Prop
  | here {i : NodeId} (h : hit i) : Replaced c hit other i other
  | above {i j : NodeId} (h : ¬hit i) (operator : c.operator j = c.operator i)
      (traits : c.traits j = c.traits i)
      (inputs : List.Forall₂ (Replaced c hit other) (c.inputs i) (c.inputs j))
      (same : c.inputs j = c.inputs i → j = i) : Replaced c hit other i j

variable {c c' C : Cluster} {hit hit' : NodeId → Prop} {other target i j : NodeId}

/-- Nodes over no node that is hit stay. -/
theorem Replaced.eq_of_forall_not (h : C.Replaced hit other i j) (hnot : ∀ k, C.InPlan i k → ¬hit k) :
    j = i := by
  -- on the number of the node: its inputs have smaller numbers
  induction i using Nat.strongRecOn generalizing j with
  | ind i ih =>
    cases h with
    | here hhit => exact absurd hhit (hnot i .root)
    | above _ _ _ inputs same =>
      have heq : List.Forall₂ Eq (C.inputs i) (C.inputs j) :=
        Outcome.forall₂_imp_of_mem (fun k hk l _ hkl => (ih k (C.inputs_lt hk) hkl fun m hm =>
          hnot m (InPlan.trans (.input .root hk) hm)).symm) inputs
      exact same (List.forall₂_eq_eq_eq ▸ heq).symm

/-- It is only asked of the nodes of a plan whether they are hit. -/
theorem Replaced.congr_hit (h : C.Replaced hit other i j)
    (hiff : ∀ k, C.InPlan i k → (hit k ↔ hit' k)) : C.Replaced hit' other i j := by
  induction i using Nat.strongRecOn generalizing j with
  | ind i ih =>
    cases h with
    | here hhit => exact .here ((hiff i .root).mp hhit)
    | above hnot operator traits inputs same =>
      refine .above (fun hhit => hnot ((hiff i .root).mpr hhit)) operator traits ?_ same
      refine Outcome.forall₂_imp_of_mem (fun k hk l _ hkl => ?_) inputs
      exact ih k (C.inputs_lt hk) hkl fun m hm => hiff m (InPlan.trans (.input .root hk) hm)

theorem Replaced.operator_eq (h : C.Replaced hit other i j) (hnot : ¬hit i) :
    C.operator j = C.operator i := by
  cases h with
  | here hhit => exact absurd hhit hnot
  | above _ operator => exact operator

/-- Above a node that is hit there is what stands for it. -/
theorem Replaced.inPlan_other {k : NodeId} (h : C.Replaced hit other i j) (hk : C.InPlan i k)
    (hhit : hit k) : C.InPlan j other := by
  -- on the number of the node: its inputs have smaller numbers
  induction i using Nat.strongRecOn generalizing j with
  | ind i ih =>
    cases h with
    | here => exact .root
    | above hnot _ _ inputs =>
      rcases hk.eq_or_input with rfl | ⟨i', hi', hk⟩
      · exact absurd hhit hnot
      · obtain ⟨j', hj', hinput⟩ := Outcome.exists_right_of_forall₂ inputs hi'
        exact (InPlan.input .root hj').trans (ih i' (C.inputs_lt hi') hinput hk)

/-- A node of the new plan is one of what stands for the nodes that are hit, or stands for a node of the
old plan. -/
theorem Replaced.of_inPlan {k : NodeId} (h : C.Replaced hit other i j) (hk : C.InPlan j k) :
    C.InPlan other k ∨ ∃ k', C.InPlan i k' ∧ ¬hit k' ∧ C.Replaced hit other k' k := by
  -- on the number of the node: its inputs have smaller numbers
  induction i using Nat.strongRecOn generalizing j with
  | ind i ih =>
    cases h with
    | here => exact .inl hk
    | above hnot operator traits inputs same =>
      rcases hk.eq_or_input with rfl | ⟨j', hj', hk⟩
      · exact .inr ⟨i, .root, hnot, .above hnot operator traits inputs same⟩
      · obtain ⟨i', hi', hinput⟩ := Outcome.exists_left_of_forall₂ inputs hj'
        refine (ih i' (C.inputs_lt hi') hinput hk).imp_right fun ⟨k', hk', h⟩ => ⟨k', ?_, h⟩
        exact (InPlan.input .root hi').trans hk'

/-- A node that comes before the target stays. -/
theorem Replaced.eq_of_lt (h : C.Replaced (· = target) other i j) (hlt : i < target) : j = i :=
  h.eq_of_forall_not fun _ hk heq => Nat.not_le_of_lt hlt (heq ▸ hk.le)

/-- A node other than the target stays as it was copied, and the target is exchanged. -/
theorem runs_settle_offer {result : NodeId}
    (h : (settle (fun id => pure (if id = target then some other else none)) i).Runs c result c') :
    c = c' ∧ (i = target ∧ result = other ∨ i ≠ target ∧ result = i) := by
  simp only [settle, Planning.runs_bind] at h
  obtain ⟨o, _, ho, h⟩ := h
  obtain ⟨rfl, rfl⟩ := Planning.runs_pure.mp ho
  by_cases heq : i = target
  · rw [if_pos heq] at h
    simp only [Planning.runs_bind, Planning.runs_pure] at h
    obtain ⟨_, _, hcheck, rfl, rfl⟩ := h
    exact ⟨(runs_checkSameType hcheck).2, .inl ⟨heq, rfl⟩⟩
  · rw [if_neg heq] at h
    obtain ⟨rfl, rfl⟩ := Planning.runs_pure.mp h
    exact ⟨rfl, .inr ⟨heq, rfl⟩⟩

/-- A rebuild that offers another node for a target replaces every use of the target. -/
theorem steps_replaced {start : Cluster} (htarget : target < start.size) (hother : other < start.size) :
    StepsRelated (C.Replaced (· = target) other) start C
      fun id => pure (if id = target then some other else none) := by
  intro id copied result inputs c c₁ c₂ hstart hid hrels hcopy hsettle hC
  have hcopied := runs_copyOver hid hcopy
  obtain ⟨rfl, hsettled⟩ := runs_settle_offer hsettle
  by_cases heq : id = target
  · -- what the target reads comes before it, so the target is not copied
    have hinputs : List.Forall₂ Eq (c.inputs id) inputs :=
      Outcome.forall₂_imp_of_mem (fun k hk l _ hkl =>
        (hkl.eq_of_lt (heq ▸ c.inputs_lt hk)).symm) hrels
    obtain ⟨rfl, rfl⟩ := hcopied.eq_of_inputs (List.forall₂_eq_eq_eq ▸ hinputs).symm
    obtain ⟨-, rfl⟩ := hsettled.resolve_right fun h => h.1 heq
    exact ⟨hstart.lt_size hother, .here heq⟩
  · have hne : copied ≠ target := by
      rcases hcopied.eq_or_new with rfl | ⟨rfl, -⟩
      · exact heq
      · exact (Nat.ne_of_lt (Nat.lt_of_lt_of_le htarget hstart.size_le)).symm
    obtain ⟨-, rfl⟩ := hsettled.resolve_left fun h => hne h.1
    have hgrow := hcopied.grows.trans hC
    refine ⟨hcopied.lt_size, .above heq ?_ ?_ ?_ fun hsame => ?_⟩
    · rw [hC.operator_eq hcopied.lt_size, hcopied.operator_eq, hgrow.operator_eq hid]
    · rw [hC.traits_eq hcopied.lt_size, traits_eq_of_runs_copyOver hcopy, hgrow.traits_eq hid]
    · rw [hC.inputs_eq hcopied.lt_size, hcopied.inputs_eq, hgrow.inputs_eq hid]
      exact hrels
    · rw [hC.inputs_eq hcopied.lt_size, hcopied.inputs_eq, hgrow.inputs_eq hid] at hsame
      exact (hcopied.eq_of_inputs hsame).1

/-- Replacing a node replaces every use of it. -/
theorem replace_replaced {root result : NodeId} (hroot : root < c.size) (htarget : target < c.size)
    (hother : other < c.size) (h : (replace root target other).Runs c result c') (hC : c'.Extends C) :
    C.Replaced (· = target) other root result :=
  (replace_steps hroot (steps_replaced htarget hother) h hC).2

/-! ## Replacing succeeds -/

section

variable {start : Cluster} {replacement : NodeId → Planning (Option NodeId)}

/-- Whatever is on record as the result of a node exists. -/
def ResultsKnown (c : Cluster) (record : List Rebuilt) : Prop := ∀ r ∈ record, r.result < c.size

/-- Settling what stands for a copy always gives a node. -/
def Settles (start : Cluster) (replacement : NodeId → Planning (Option NodeId)) : Prop :=
  ∀ {copied : NodeId} {c : Cluster}, start.Extends c → copied < c.size →
    ∃ result c', (settle replacement copied).Runs c result c' ∧ result < c'.size

/-- Rebuilding a node gives a node, and keeps the record of what exists. -/
def RebuildSucceeds (start : Cluster) (replacement : NodeId → Planning (Option NodeId)) (id : NodeId) :
    Prop :=
  ∀ {record : List Rebuilt} {c : Cluster}, start.Extends c → id < c.size → ResultsKnown c record →
    ∃ result record' c', ((rebuildNode replacement id).run record).Runs c (result, record') c' ∧
      ResultsKnown c' record' ∧ result < c'.size

theorem rebuildInputs_succeeds (hgrows : ∀ id, (replacement id).Grows) {id : NodeId}
    (below : List { j : NodeId // j < id }) (ih : ∀ j < id, RebuildSucceeds start replacement j)
    {record : List Rebuilt} (hstart : start.Extends c) (hid : id < c.size) (hrec : ResultsKnown c record) :
    ∃ inputs record' c',
      ((below.mapM fun x => rebuildNode replacement x.1).run record).Runs c (inputs, record') c' ∧
      ResultsKnown c' record' ∧ inputs.length = below.length ∧ ∀ k ∈ inputs, k < c'.size := by
  induction below generalizing record c with
  | nil => exact ⟨[], record, c, Planning.runs_pure.mpr ⟨rfl, rfl⟩, hrec, rfl, by simp⟩
  | cons j below ihbelow =>
    obtain ⟨result, record₁, c₁, hj, hrec₁, hresult⟩ :=
      ih j.1 j.2 hstart (Nat.lt_trans j.2 hid) hrec
    have hgrow := (grows_rebuildNode hgrows j.1 record).runs hj
    obtain ⟨rest, record₂, c₂, hrest, hrec₂, hlength, hrestLt⟩ :=
      ihbelow (hstart.trans hgrow) (hgrow.lt_size hid) hrec₁
    have hgrow₂ :=
      (Planning.grows_mapM_run below (fun x _ s => grows_rebuildNode hgrows x.1 s) record₁).runs hrest
    refine ⟨result :: rest, record₂, c₂, ?_, hrec₂, by simp [hlength], ?_⟩
    · simp only [List.mapM_cons, StateT.run_bind, Planning.runs_bind, StateT.run_pure, Planning.runs_pure]
      exact ⟨_, c₁, hj, _, c₂, hrest, rfl, rfl⟩
    · exact List.forall_mem_cons.mpr ⟨hgrow₂.lt_size hresult, hrestLt⟩

theorem rebuildNode_succeeds (hgrows : ∀ id, (replacement id).Grows)
    (hsettles : Settles start replacement) (id : NodeId) : RebuildSucceeds start replacement id := by
  -- on the number of the node: its inputs have smaller numbers
  induction id using Nat.strongRecOn with
  | ind id ih =>
    intro record c hstart hid hrec
    rw [rebuildNode]
    simp only [StateT.run_bind, StateT.run_get, pure_bind]
    split
    · next done hdone =>
      exact ⟨done.result, record, c, Planning.runs_pure.mpr ⟨rfl, rfl⟩, hrec,
        hrec done (List.mem_of_find?_eq_some hdone)⟩
    · obtain ⟨inputs, record₁, c₁, hinputs, hrec₁, hlength, hlt⟩ :=
        rebuildInputs_succeeds hgrows (c.inputsBelow id) ih hstart hid hrec
      have hgrow₁ : c.Extends c₁ :=
        (Planning.grows_mapM_run _ (fun x _ s => grows_rebuildNode hgrows x.1 s) record).runs hinputs
      rw [← List.length_map Subtype.val, inputsBelow_map_val, ← hgrow₁.inputs_eq hid] at hlength
      obtain ⟨copied, c₂, hcopy⟩ := copyOver_succeeds_of_length (hgrow₁.lt_size hid) hlength hlt
      have hcopied := runs_copyOver (hgrow₁.lt_size hid) hcopy
      have hgrow₂ := hgrow₁.trans hcopied.grows
      obtain ⟨result, c₃, hsettle, hresult⟩ := hsettles (hstart.trans hgrow₂) hcopied.lt_size
      have hgrow₃ := hcopied.grows.trans ((grows_settle hgrows copied).runs hsettle)
      refine ⟨result, ⟨id, copied, result⟩ :: record₁, c₃, ?_, ?_, hresult⟩
      · simp only [StateT.run_bind, Planning.runs_bind, Planning.runs_lift_run, StateT.run_modify,
          StateT.run_pure, Planning.runs_pure]
        exact ⟨(c.inputsBelow id, record), c, ⟨Planning.runs_read.mpr ⟨rfl, rfl⟩, rfl⟩, (inputs, record₁),
          c₁, hinputs, (copied, record₁), c₂, ⟨hcopy, rfl⟩, (result, record₁), c₃, ⟨hsettle, rfl⟩, _, c₃,
          ⟨rfl, rfl⟩, rfl, rfl⟩
      · exact List.forall_mem_cons.mpr ⟨hresult, fun r hr => hgrow₃.lt_size (hrec₁ r hr)⟩

end

/-- A node can be replaced by any node with its column types. -/
theorem replace_succeeds {root : NodeId} (hroot : root < c.size) (htarget : target < c.size)
    (hother : other < c.size) (hsame : (c.rowType target).isCompatible (c.rowType other) = true) :
    ∃ result c', (replace root target other).Runs c result c' := by
  have hsettles : Settles c fun id => pure (if id = target then some other else none) := by
    intro copied c₁ hstart hcopied
    simp only [settle, Planning.runs_bind]
    by_cases heq : copied = target
    · refine ⟨other, c₁, ⟨some other, c₁, ?_, ?_⟩, hstart.lt_size hother⟩
      · exact Planning.runs_pure.mpr ⟨if_pos heq, rfl⟩
      · simp only [Planning.runs_bind, Planning.runs_pure]
        refine ⟨(), c₁, Planning.runs_inspect.mpr ⟨?_, rfl⟩, trivial, rfl⟩
        rw [heq, hstart.rowType_eq htarget, hstart.rowType_eq hother, if_pos hsame]
    · refine ⟨copied, c₁, ⟨none, c₁, ?_, ?_⟩, hcopied⟩
      · exact Planning.runs_pure.mpr ⟨if_neg heq, rfl⟩
      · exact Planning.runs_pure.mpr ⟨rfl, rfl⟩
  have hknown : ResultsKnown c [] := List.forall_mem_nil _
  obtain ⟨result, record, c', hrun, -, -⟩ :=
    rebuildNode_succeeds (fun _ => Planning.grows_pure _) hsettles root (.refl c) hroot hknown
  refine ⟨result, c', ?_⟩
  simp only [replace, rebuild, Planning.runs_bind, Planning.runs_pure]
  exact ⟨(result, record.reverse), c', ⟨_, c', hrun, rfl, rfl⟩, rfl, rfl⟩

end QueryPlan.Cluster
