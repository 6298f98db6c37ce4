import Mathlib.Data.List.Perm.Subperm
import Mathlib.Logic.Relation
import QueryPlan.Proofs.Execution.Delivery
import QueryPlan.Proofs.Session.Growth
/-!
# Plans without subsets

Stripping a plan replaces each subset by the member that stands for it. What is left has the same
rows.

While a plan is stripped, the record holds what stands for the nodes that are done: entries are
explained by each other, down to nodes without inputs, so every way on from a node on record ends. A
node whose ways all end can be stripped: inputs have smaller numbers, so only subsets lead forward,
and those under way are marked. Hence the bound on the length of a way is never reached, and what
has rows can be stripped.
-/
namespace QueryPlan.Cluster

/-! ## Plans without subsets -/

/-- There is no subset under the node. -/
inductive Plain (c : Cluster) : NodeId → Prop
  | node {id : NodeId} (inputs : ∀ j ∈ c.inputs id, Plain c j)
      (own : (c.operator id).isSubset = false) : Plain c id

theorem evaluate_of_delivers {c : Cluster} {id : NodeId} {rows : List Row} (hplain : c.Plain id)
    (h : c.Delivers id rows) : c.evaluate false id = .ok rows := by
  induction h with
  | node rowsOf _ hrows ih =>
    cases hplain with
    | node hinputs _ =>
      rw [evaluate_eq, Outcome.bind_eq_ok]
      exact ⟨_, Outcome.mapM_eq_ok_map fun j hj => ih j hj (hinputs j hj), hrows⟩
  | member hsub =>
    cases hplain with
    | node _ hown =>
      rw [hown] at hsub
      cases hsub

/-! ## One step of stripping -/

/-- What stripping a node does that has not been stripped. -/
inductive StripStep (depth : Nat) (id : NodeId) (s : Stripping) (c : Cluster) (result : NodeId)
    (s' : Stripping) (c' : Cluster) : Prop
  | done (found : s.done.lookup id = some result) (state : s = s') (session : c = c')
  | subset (m : NodeId) (s₁ : Stripping) (new : s.done.lookup id = none)
      (subset : (c.operator id).isSubset = true)
      (chosen : (c.node id).chosenMember? = some m) (inactive : id ∉ s.active)
      (below : ((stripNode depth m).run { s with active := id :: s.active }).Runs c
        (result, s₁) c')
      (state : { done := (id, result) :: s₁.done, active := s₁.active.erase id } = s')
  | node (inputs : List NodeId) (s₁ : Stripping) (c₁ : Cluster) (new : s.done.lookup id = none)
      (plain : (c.operator id).isSubset = false)
      (below : (((c.inputs id).mapM (stripNode depth)).run s).Runs c (inputs, s₁) c₁)
      (copied : (copyOver id inputs).Runs c₁ result c')
      (state : { s₁ with done := (id, result) :: s₁.done } = s')

theorem runs_stripNode {depth : Nat} {id result : NodeId} {s s' : Stripping} {c c' : Cluster}
    (h : ((stripNode (depth + 1) id).run s).Runs c (result, s') c') :
    StripStep depth id s c result s' c' := by
  simp only [stripNode, StateT.run_bind, StateT.run_get, pure_bind] at h
  cases hfind : s.done.lookup id with
  | some r =>
    rw [hfind] at h
    simp only [StateT.run_pure, Planning.runs_pure, Prod.mk.injEq] at h
    obtain ⟨⟨rfl, rfl⟩, rfl⟩ := h
    exact .done hfind rfl rfl
  | none =>
    rw [hfind] at h
    simp only [StateT.run_bind, Planning.runs_bind, Planning.runs_lift_run] at h
    obtain ⟨⟨n, s₁⟩, c₁, ⟨hn, hs₁⟩, h⟩ := h
    obtain ⟨hnode, rfl⟩ := Planning.runs_read.mp hn
    dsimp only at hnode hs₁
    subst hnode hs₁
    dsimp only at h
    split at h
    · next hsub =>
      cases hchosen : (c.node id).chosenMember? with
      | none =>
        rw [hchosen] at h
        cases h
      | some m =>
        rw [hchosen] at h
        simp only [StateT.run_bind, StateT.run_get, pure_bind] at h
        split at h
        · cases h
        · next hactive =>
          simp only [StateT.run_bind, StateT.run_modify, StateT.run_pure, pure_bind,
            Planning.runs_bind, Planning.runs_pure, Prod.mk.injEq] at h
          obtain ⟨⟨r, s₁⟩, c₁, hbelow, ⟨rfl, rfl⟩, rfl⟩ := h
          exact .subset m s₁ hfind hsub hchosen (by simpa using hactive) hbelow rfl
    · next hsub =>
      simp only [StateT.run_bind, StateT.run_modify, StateT.run_pure, pure_bind,
        Planning.runs_bind, Planning.runs_pure, Planning.runs_lift_run, Prod.mk.injEq] at h
      obtain ⟨⟨inputs, s₁⟩, c₁, hbelow, ⟨r, s₂⟩, c₂, ⟨hcopy, rfl⟩, ⟨rfl, rfl⟩, rfl⟩ := h
      exact .node inputs s₁ c₁ hfind (Bool.eq_false_iff.mpr hsub) hbelow hcopy rfl

/-- A node that is no subset is stripped once its inputs are, by a copy over what stands for them. -/
theorem stripNode_runs_node {depth : Nat} {id result : NodeId} {s s₁ : Stripping}
    {c c₁ c' : Cluster} {inputs : List NodeId} (hnew : s.done.lookup id = none)
    (hsub : (c.operator id).isSubset = false)
    (h : (((c.inputs id).mapM (stripNode depth)).run s).Runs c (inputs, s₁) c₁)
    (hcopy : (copyOver id inputs).Runs c₁ result c') :
    ((stripNode (depth + 1) id).run s).Runs c
      (result, { s₁ with done := (id, result) :: s₁.done }) c' := by
  have hplain : ¬(c.node id).operator.isSubset = true := Bool.eq_false_iff.mp hsub
  simp only [stripNode, StateT.run_bind, StateT.run_get, pure_bind, hnew, Planning.runs_bind,
    Planning.runs_lift_run]
  refine ⟨(c.node id, s), c, ⟨Planning.runs_read.mpr ⟨rfl, rfl⟩, rfl⟩, ?_⟩
  dsimp only
  rw [if_neg hplain]
  simp only [StateT.run_bind, StateT.run_modify, StateT.run_pure, pure_bind, Planning.runs_bind,
    Planning.runs_lift_run]
  exact ⟨(inputs, s₁), c₁, h, (result, s₁), c', ⟨hcopy, rfl⟩, Planning.runs_pure.mpr ⟨rfl, rfl⟩⟩

theorem grows_stripNode (depth : Nat) (id : NodeId) (s : Stripping) :
    ((stripNode depth id).run s).Grows := by
  induction depth generalizing id s with
  | zero => exact Planning.grows_throw _
  | succ depth ih =>
    simp only [stripNode, StateT.run_bind, StateT.run_get, pure_bind]
    cases s.done.lookup id with
    | some r => exact Planning.grows_pure _
    | none =>
      refine ((Planning.grows_read _).lift_run s).bind fun ⟨n, s⟩ => ?_
      dsimp only
      split
      · cases n.chosenMember? with
        | none => exact Planning.grows_throw _
        | some m =>
          change Planning.Grows (StateT.run (get >>= _) s)
          simp only [StateT.run_bind, StateT.run_get, pure_bind]
          split
          · exact Planning.grows_throw _
          · exact (ih m _).bind fun _ => Planning.grows_pure _
      · refine (Planning.grows_mapM_run _ (fun i _ s => ih i s) s).bind fun ⟨inputs, s⟩ => ?_
        exact ((grows_copyOver _ _).lift_run s).bind fun _ => Planning.grows_pure _

/-! ## Plans without subsets stay as they are -/

section

variable {c : Cluster}

theorem copyOver_inputs (c : Cluster) (id : NodeId) : (copyOver id (c.inputs id)).Runs c id c := by
  simp only [copyOver, copy, Planning.runs_bind, Planning.runs_read]
  refine ⟨c.traits id, c, ⟨rfl, rfl⟩, c.node id, c, ⟨rfl, rfl⟩, ?_⟩
  rw [if_pos ⟨rfl, rfl⟩]
  exact Planning.runs_pure.mpr ⟨rfl, rfl⟩

/-- Every node on record stands for itself. -/
def Stripping.Keeps (s : Stripping) : Prop :=
  ∀ id result, s.done.lookup id = some result → result = id

theorem stripInputs_plain {depth : Nat} {ids : List NodeId} {s : Stripping} (hs : s.Keeps)
    (h : ∀ i ∈ ids, ∀ s : Stripping, s.Keeps →
      ∃ s', ((stripNode depth i).run s).Runs c (i, s') c ∧ s'.Keeps) :
    ∃ s', ((ids.mapM (stripNode depth)).run s).Runs c (ids, s') c ∧ s'.Keeps := by
  induction ids generalizing s with
  | nil => exact ⟨s, rfl, hs⟩
  | cons i ids ih =>
    obtain ⟨hi, hids⟩ := List.forall_mem_cons.mp h
    obtain ⟨s₁, hrun₁, hs₁⟩ := hi s hs
    obtain ⟨s₂, hrun₂, hs₂⟩ := ih hs₁ hids
    refine ⟨s₂, ?_, hs₂⟩
    simp only [List.mapM_cons, StateT.run_bind, StateT.run_pure, Planning.runs_bind]
    exact ⟨_, _, hrun₁, _, _, hrun₂, Planning.runs_pure.mpr ⟨rfl, rfl⟩⟩

theorem stripNode_plain {depth : Nat} {id : NodeId} (hid : id < depth) (hplain : c.Plain id)
    {s : Stripping} (hs : s.Keeps) :
    ∃ s', ((stripNode depth id).run s).Runs c (id, s') c ∧ s'.Keeps := by
  induction depth generalizing id s with
  | zero => exact absurd hid (Nat.not_lt_zero id)
  | succ depth ih =>
    cases hfind : s.done.lookup id with
    | some result =>
      refine ⟨s, ?_, hs⟩
      simp only [stripNode, StateT.run_bind, StateT.run_get, pure_bind, hfind]
      exact Planning.runs_pure.mpr ⟨by rw [hs id result hfind], rfl⟩
    | none =>
      cases hplain with
      | node hinputs hown =>
        obtain ⟨s₁, hrun, hs₁⟩ := stripInputs_plain hs fun i hi s hs =>
          ih (Nat.lt_of_lt_of_le (c.inputs_lt hi) (Nat.le_of_lt_succ hid)) (hinputs i hi) hs
        refine ⟨_, stripNode_runs_node hfind hown hrun (copyOver_inputs c id), ?_⟩
        intro i r hr
        rw [List.lookup_cons] at hr
        split at hr
        · next heq =>
          cases hr
          exact (beq_iff_eq.mp heq).symm
        · exact hs₁ i r hr

theorem stripSubsets_plain {id : NodeId} (hid : id < c.size) (hplain : c.Plain id) :
    (stripSubsets id).Runs c id c := by
  have hdepth : id < (c.size + 1) * (c.size + 1) :=
    Nat.lt_of_lt_of_le (Nat.lt_succ_of_lt hid) (Nat.le_mul_of_pos_left _ (Nat.succ_pos _))
  obtain ⟨s', hrun, -⟩ := stripNode_plain hdepth hplain (s := {}) (fun i r h => by cases h)
  simp only [stripSubsets, Planning.runs_bind, Planning.runs_read]
  refine ⟨_, c, ⟨rfl, rfl⟩, ?_⟩
  rw [StateT.run'_eq, Planning.runs_map]
  exact ⟨_, hrun, rfl⟩

/-- Running a plan without subsets evaluates it and leaves the session as it is. -/
theorem run_plain {id : NodeId} (hid : id < c.size) (hplain : c.Plain id) (cancelled : Bool) :
    (run id cancelled).run.run c = (c.evaluate cancelled id, c) := by
  have hstrip : (stripSubsets id).run.run c = (.ok id, c) := stripSubsets_plain hid hplain
  have hexecute := execute_eq_evaluate c cancelled id
  rw [run, ExceptT.run_bind, StateT.run_bind, hstrip, ← hexecute]
  rfl

end

/-! ## Which nodes can be stripped -/

/-- A node leads to its inputs, and a subset to the member that stands for it. -/
inductive Leads (c : Cluster) (id : NodeId) : NodeId → Prop
  | input {j : NodeId} (mem : j ∈ c.inputs id) : Leads c id j
  | member {m : NodeId} (subset : (c.operator id).isSubset = true)
      (chosen : (c.node id).chosenMember? = some m) : Leads c id m

theorem Leads.lt_size {c : Cluster} {id j : NodeId} (h : c.Leads id j) : j < c.size := by
  cases h with
  | input hj => exact inputs_lt_size hj
  | member _ hchosen => exact (chosenMember?_spec hchosen).1

theorem not_rel_of_acc {α : Type} {r : α → α → Prop} {a : α} (h : Acc r a) : ¬r a a := by
  induction h with
  | intro a _ ih => exact fun haa => ih a haa haa

/-- Every way that leads on from the node ends, and at a node that is no subset. -/
inductive Strippable (c : Cluster) : NodeId → Prop
  | node {id : NodeId} (plain : (c.operator id).isSubset = false)
      (inputs : ∀ j ∈ c.inputs id, Strippable c j) : Strippable c id
  | member {id m : NodeId} (subset : (c.operator id).isSubset = true)
      (chosen : (c.node id).chosenMember? = some m) (member : Strippable c m) : Strippable c id

/-- A node that has rows leads to nodes that have rows, and never back to itself. -/
theorem Delivers.strippable {c : Cluster} {id : NodeId} {rows : List Row} (h : c.Delivers id rows) :
    c.Strippable id := by
  induction h with
  | node _ _ hrows ih => exact .node (nodeRows_subset hrows) ih
  | member hsub hchosen _ ih => exact .member hsub hchosen ih

namespace Strippable

variable {c : Cluster} {id j : NodeId}

theorem leads (h : c.Strippable id) (hj : c.Leads id j) : c.Strippable j := by
  cases hj with
  | input hj =>
    cases h with
    | node _ hinputs => exact hinputs j hj
    | member hsub =>
      rw [inputs_eq_nil_of_isSubset hsub] at hj
      cases hj
  | member hsub hchosen =>
    cases h with
    | node hplain =>
      rw [hplain] at hsub
      cases hsub
    | member _ hchosen' hmember =>
      rw [hchosen] at hchosen'
      cases hchosen'
      exact hmember

theorem acc (h : c.Strippable id) : Acc (fun j i => c.Leads i j) id := by
  induction h with
  | node hplain _ ih =>
    refine .intro _ fun j hj => ?_
    cases hj with
    | input hj => exact ih j hj
    | member hsub =>
      rw [hplain] at hsub
      cases hsub
  | member hsub hchosen _ ih =>
    refine .intro _ fun j hj => ?_
    cases hj with
    | input hj =>
      rw [inputs_eq_nil_of_isSubset hsub] at hj
      cases hj
    | member _ hchosen' =>
      rw [hchosen] at hchosen'
      cases hchosen'
      exact ih

theorem of_reaches (h : c.Strippable id) (hj : Relation.ReflTransGen c.Leads id j) :
    c.Strippable j := by
  induction hj with
  | refl => exact h
  | tail _ hj ih => exact ih.leads hj

theorem not_reaches_self (h : c.Strippable id) : ¬Relation.TransGen c.Leads id id := by
  intro hself
  have hacc : Acc (Relation.TransGen fun j i => c.Leads i j) id := h.acc.transGen
  exact not_rel_of_acc hacc (Relation.transGen_swap.mpr hself)

/-- The member that stands for a subset that can be stripped. -/
theorem exists_chosen (h : c.Strippable id) (hsub : (c.operator id).isSubset = true) :
    ∃ m, (c.node id).chosenMember? = some m := by
  cases h with
  | node hplain =>
    rw [hplain] at hsub
    cases hsub
  | member _ hchosen => exact ⟨_, hchosen⟩

end Strippable

/-- No empty subset is reached from the node, and nothing that leads back to itself. -/
def Executable (c : Cluster) (root : NodeId) : Prop :=
  ∀ i, Relation.ReflTransGen c.Leads root i →
    ((c.operator i).isSubset = true → (c.node i).members ≠ []) ∧ ¬Relation.TransGen c.Leads i i

theorem Strippable.executable {c : Cluster} {root : NodeId} (h : c.Strippable root) :
    c.Executable root := by
  intro i hi
  have hi := h.of_reaches hi
  refine ⟨fun hsub hempty => ?_, hi.not_reaches_self⟩
  obtain ⟨m, hchosen⟩ := hi.exists_chosen hsub
  have hmem := chosenMember?_mem hchosen
  rw [hempty] at hmem
  cases hmem

/-! ## What is on record -/

namespace Stripping

/-- Why a node stands for another one in a plan without subsets. What stands for a subset is what
stands for its chosen member; what stands for any other node is that node over what stands for its
inputs, and the node itself if its inputs stay. -/
inductive Explains (start c : Cluster) (done : List (NodeId × NodeId)) (id result : NodeId) : Prop
  | member (m : NodeId) (subset : (start.operator id).isSubset = true)
      (chosen : (start.node id).chosenMember? = some m) (found : (m, result) ∈ done)
  | copy (plain : (start.operator id).isSubset = false)
      (operator_eq : c.operator result = start.operator id)
      (traits_eq : c.traits result = start.traits id)
      (inputs : List.Forall₂ (fun j k => (j, k) ∈ done) (start.inputs id) (c.inputs result))
      (kept : c.inputs result = start.inputs id → result = id)

/-- The node is on record as the copy of one node. -/
def CopyOfOne (start : Cluster) (done : List (NodeId × NodeId)) (n : NodeId) : Prop :=
  ∃! i, (start.operator i).isSubset = false ∧ (i, n) ∈ done

/-- What holds of the record while a plan is stripped, where `start` is the session in which this
begins: entries are explained by each other, and every new node is the copy of one node. -/
structure Sound (s : Stripping) (start c : Cluster) : Prop where
  grown : start.Extends c
  nodup : (s.done.map Prod.fst).Nodup
  lt_size : ∀ p ∈ s.done, p.1 < start.size ∧ p.2 < c.size
  strippable : ∀ p ∈ s.done, start.Strippable p.1
  explained : ∀ p ∈ s.done, Explains start c s.done p.1 p.2
  fresh : ∀ n, start.size ≤ n → n < c.size → CopyOfOne start s.done n

variable {s : Stripping} {start c c' : Cluster} {id result : NodeId}

theorem sound_empty (c : Cluster) : ({} : Stripping).Sound c c where
  grown := .refl c
  nodup := .nil
  lt_size p hp := by cases hp
  strippable p hp := by cases hp
  explained p hp := by cases hp
  fresh n hn hlt := absurd hlt (Nat.not_lt.mpr hn)

theorem Sound.withActive (h : s.Sound start c) (active : List NodeId) :
    Sound { s with active } start c :=
  ⟨h.grown, h.nodup, h.lt_size, h.strippable, h.explained, h.fresh⟩

theorem mem_of_lookup {done : List (NodeId × NodeId)} (h : done.lookup id = some result) :
    (id, result) ∈ done := by
  obtain ⟨before, after, rfl, -⟩ := List.lookup_eq_some_iff.mp h
  simp

theorem not_mem_keys {done : List (NodeId × NodeId)} (h : done.lookup id = none) :
    id ∉ done.map Prod.fst := by
  rw [List.mem_map]
  rintro ⟨p, hp, rfl⟩
  simpa using List.lookup_eq_none_iff.mp h p hp

theorem Explains.mono {done done' : List (NodeId × NodeId)} (h : Explains start c done id result)
    (hresult : result < c.size) (hc : c.Extends c') (hdone : done ⊆ done') :
    Explains start c' done' id result := by
  cases h with
  | member m hsub hchosen hfound => exact .member m hsub hchosen (hdone hfound)
  | copy hplain hop htraits hinputs hkept =>
    rw [← hc.inputs_eq hresult] at hinputs hkept
    exact .copy hplain (by rw [hc.operator_eq hresult, hop]) (by rw [hc.traits_eq hresult, htraits])
      (hinputs.imp fun _ _ h => hdone h) hkept

/-- What stands for a subset stands for its chosen member. -/
theorem Sound.mem_chosen (h : s.Sound start c) (hmem : (id, result) ∈ s.done) {m : NodeId}
    (hsub : (start.operator id).isSubset = true)
    (hchosen : (start.node id).chosenMember? = some m) :
    (m, result) ∈ s.done := by
  cases h.explained _ hmem with
  | member _ _ hchosen' hfound =>
    rw [hchosen] at hchosen'
    cases hchosen'
    exact hfound
  | copy hplain =>
    rw [hplain] at hsub
    cases hsub

/-- What stands for any other node is that node over what stands for its inputs. -/
theorem Sound.copied (h : s.Sound start c) (hmem : (id, result) ∈ s.done)
    (hplain : (start.operator id).isSubset = false) :
    c.operator result = start.operator id ∧ c.traits result = start.traits id ∧
      List.Forall₂ (fun j k => (j, k) ∈ s.done) (start.inputs id) (c.inputs result) ∧
      (c.inputs result = start.inputs id → result = id) := by
  cases h.explained _ hmem with
  | member _ hsub =>
    rw [hplain] at hsub
    cases hsub
  | copy _ hop htraits hinputs hkept => exact ⟨hop, htraits, hinputs, hkept⟩

/-- An entry of another node, or for a subset, makes no second copy. -/
theorem CopyOfOne.cons {done : List (NodeId × NodeId)} {n : NodeId} (h : CopyOfOne start done n)
    (hother : (start.operator id).isSubset = false → result ≠ n) :
    CopyOfOne start ((id, result) :: done) n := by
  obtain ⟨i, ⟨hplain, hi⟩, hunique⟩ := h
  refine ⟨i, ⟨hplain, List.mem_cons_of_mem _ hi⟩, fun j ⟨hplain', hj⟩ => ?_⟩
  rcases List.mem_cons.mp hj with heq | hj
  · cases heq
    exact absurd rfl (hother hplain')
  · exact hunique j ⟨hplain', hj⟩

/-- An entry for a subset, once there is one for its member. -/
theorem Sound.member (h : s.Sound start c) {m : NodeId} (hid : id < start.size)
    (hsub : (start.operator id).isSubset = true)
    (hchosen : (start.node id).chosenMember? = some m) (hfound : (m, result) ∈ s.done)
    (hnew : id ∉ s.done.map Prod.fst) (active : List NodeId) :
    Sound { done := (id, result) :: s.done, active } start c where
  grown := h.grown
  nodup := List.nodup_cons.mpr ⟨hnew, h.nodup⟩
  lt_size := List.forall_mem_cons.mpr ⟨⟨hid, (h.lt_size _ hfound).2⟩, h.lt_size⟩
  strippable :=
    List.forall_mem_cons.mpr ⟨.member hsub hchosen (h.strippable _ hfound), h.strippable⟩
  explained := List.forall_mem_cons.mpr
    ⟨.member m hsub hchosen (List.mem_cons_of_mem _ hfound), fun p hp =>
      (h.explained p hp).mono (h.lt_size p hp).2 (.refl c) (List.subset_cons_self _ _)⟩
  fresh n hn hlt := (h.fresh n hn hlt).cons fun hplain => by
    rw [hsub] at hplain
    cases hplain

section

variable {inputs : List NodeId}

theorem Sound.strippable_of_inputs (h : s.Sound start c)
    (hplain : (start.operator id).isSubset = false)
    (hinputs : List.Forall₂ (fun j k => (j, k) ∈ s.done) (start.inputs id) inputs) :
    start.Strippable id := by
  refine .node hplain fun j hj => ?_
  obtain ⟨k, -, hk⟩ := Outcome.exists_right_of_forall₂ hinputs hj
  exact h.strippable _ hk

theorem Sound.explains_copy (h : s.Sound start c) (hid : id < start.size)
    (hplain : (start.operator id).isSubset = false)
    (hinputs : List.Forall₂ (fun j k => (j, k) ∈ s.done) (start.inputs id) inputs)
    (hcopy : (copyOver id inputs).Runs c result c') :
    Explains start c' ((id, result) :: s.done) id result := by
  have hcopied := runs_copyOver (h.grown.lt_size hid) hcopy
  refine .copy hplain ?_ ?_ ?_ fun heq => ?_
  · rw [hcopied.operator_eq, h.grown.operator_eq hid]
  · rw [traits_eq_of_runs_copyOver hcopy, h.grown.traits_eq hid]
  · rw [hcopied.inputs_eq]
    exact hinputs.imp fun _ _ hjk => List.mem_cons_of_mem _ hjk
  · rw [hcopied.inputs_eq, ← h.grown.inputs_eq hid] at heq
    exact (hcopied.eq_of_inputs heq).1

/-- If the copy is a new node, it is the copy of this one node. -/
theorem Sound.fresh_copy (h : s.Sound start c) (hid : id < start.size)
    (hplain : (start.operator id).isSubset = false) (hcopy : (copyOver id inputs).Runs c result c')
    {n : NodeId} (hn : start.size ≤ n) (hlt : n < c'.size) :
    CopyOfOne start ((id, result) :: s.done) n := by
  rcases created_of_runs_copyOver hcopy with ⟨-, rfl, rfl⟩ | ⟨-, hcreated⟩
  · exact (h.fresh n hn hlt).cons fun _ heq => absurd hid (Nat.not_lt.mpr (heq ▸ hn))
  · rw [hcreated.size_eq] at hlt
    rcases Nat.lt_succ_iff_lt_or_eq.mp hlt with hlt | rfl
    · exact (h.fresh n hn hlt).cons fun _ heq => Nat.ne_of_lt hlt (heq ▸ hcreated.id_eq)
    · refine ⟨id, ⟨hplain, by rw [hcreated.id_eq]; exact List.mem_cons_self⟩, fun j ⟨_, hmem⟩ => ?_⟩
      rcases List.mem_cons.mp hmem with heq | hmem
      · exact (Prod.mk.inj heq).1
      · exact absurd (h.lt_size _ hmem).2 (Nat.lt_irrefl _)

/-- An entry for any other node, once there are entries for its inputs. -/
theorem Sound.copy (h : s.Sound start c) (hid : id < start.size)
    (hplain : (start.operator id).isSubset = false)
    (hinputs : List.Forall₂ (fun j k => (j, k) ∈ s.done) (start.inputs id) inputs)
    (hcopy : (copyOver id inputs).Runs c result c') (hnew : id ∉ s.done.map Prod.fst)
    (active : List NodeId) : Sound { done := (id, result) :: s.done, active } start c' :=
  have hcopied := runs_copyOver (h.grown.lt_size hid) hcopy
  { grown := h.grown.trans hcopied.grows
    nodup := List.nodup_cons.mpr ⟨hnew, h.nodup⟩
    lt_size := List.forall_mem_cons.mpr ⟨⟨hid, hcopied.lt_size⟩, fun p hp =>
      ⟨(h.lt_size p hp).1, hcopied.grows.lt_size (h.lt_size p hp).2⟩⟩
    strippable := List.forall_mem_cons.mpr ⟨h.strippable_of_inputs hplain hinputs, h.strippable⟩
    explained := List.forall_mem_cons.mpr ⟨h.explains_copy hid hplain hinputs hcopy, fun p hp =>
      (h.explained p hp).mono (h.lt_size p hp).2 hcopied.grows (List.subset_cons_self _ _)⟩
    fresh := fun _ hn hlt => h.fresh_copy hid hplain hcopy hn hlt }

end

/-- The state goes on: what was under way still is, what was on record stays, and new entries are of
nodes that the given ones lead to. -/
structure Continues (start : Cluster) (roots : List NodeId) (s s' : Stripping) : Prop where
  active_eq : s'.active = s.active
  kept : s.done ⊆ s'.done
  reached : ∀ p ∈ s'.done, p ∈ s.done ∨ ∃ i ∈ roots, Relation.ReflTransGen start.Leads i p.1

theorem Continues.refl (start : Cluster) (roots : List NodeId) (s : Stripping) :
    Continues start roots s s := ⟨rfl, List.Subset.refl _, fun _ hp => .inl hp⟩

/-- A node that was not on record, and does not lead to itself, is not on record when what it leads
to has been stripped. -/
theorem Continues.not_mem_keys {roots : List NodeId} {s' : Stripping}
    (h : Continues start roots s s') (hnew : s.done.lookup id = none)
    (hroots : ∀ i ∈ roots, start.Leads id i)
    (hself : ¬Relation.TransGen start.Leads id id) : id ∉ s'.done.map Prod.fst := by
  intro hid
  obtain ⟨p, hp, rfl⟩ := List.mem_map.mp hid
  rcases h.reached p hp with hp | ⟨i, hi, hreach⟩
  · exact Stripping.not_mem_keys hnew (List.mem_map_of_mem hp)
  · exact hself (.head' (hroots i hi) hreach)

end Stripping

open Stripping

section

variable {start c c' : Cluster} {depth : Nat} {s s' : Stripping}

theorem stripInputs_sound
    (ih : ∀ {id s s' c c' result}, id < start.size → s.Sound start c →
      ((stripNode depth id).run s).Runs c (result, s') c' →
      s'.Sound start c' ∧ (id, result) ∈ s'.done ∧ Continues start [id] s s')
    {ids results : List NodeId} (hids : ∀ i ∈ ids, i < start.size) (hs : s.Sound start c)
    (h : ((ids.mapM (stripNode depth)).run s).Runs c (results, s') c') :
    s'.Sound start c' ∧ List.Forall₂ (fun j k => (j, k) ∈ s'.done) ids results ∧
      Continues start ids s s' := by
  induction ids generalizing s c results with
  | nil =>
    simp only [List.mapM_nil, StateT.run_pure, Planning.runs_pure, Prod.mk.injEq] at h
    obtain ⟨⟨rfl, rfl⟩, rfl⟩ := h
    exact ⟨hs, .nil, .refl _ _ _⟩
  | cons i ids ihids =>
    obtain ⟨hi, hids⟩ := List.forall_mem_cons.mp hids
    simp only [List.mapM_cons, StateT.run_bind, StateT.run_pure, Planning.runs_bind,
      Planning.runs_pure, Prod.mk.injEq] at h
    obtain ⟨⟨result, s₁⟩, c₁, hfirst, ⟨rest, s₂⟩, c₂, hrest, ⟨rfl, rfl⟩, rfl⟩ := h
    obtain ⟨hs₁, hresult, hgoes₁⟩ := ih hi hs hfirst
    obtain ⟨hs₂, hresults, hgoes₂⟩ := ihids hids hs₁ hrest
    refine ⟨hs₂, .cons (hgoes₂.kept hresult) hresults, hgoes₂.active_eq.trans hgoes₁.active_eq,
      List.Subset.trans hgoes₁.kept hgoes₂.kept, fun p hp => ?_⟩
    rcases hgoes₂.reached p hp with hp | ⟨j, hj, hreach⟩
    · rcases hgoes₁.reached p hp with hp | ⟨j, hj, hreach⟩
      · exact .inl hp
      · exact .inr ⟨j, List.mem_singleton.mp hj ▸ List.mem_cons_self, hreach⟩
    · exact .inr ⟨j, List.mem_cons_of_mem _ hj, hreach⟩

/-- Stripping a node keeps the record sound, and then the node is on it. -/
theorem stripNode_sound (depth : Nat) {id result : NodeId} {s s' : Stripping} {c c' : Cluster}
    (hid : id < start.size) (hs : s.Sound start c)
    (h : ((stripNode depth id).run s).Runs c (result, s') c') :
    s'.Sound start c' ∧ (id, result) ∈ s'.done ∧ Continues start [id] s s' := by
  induction depth generalizing id s s' c c' result with
  | zero => cases h
  | succ depth ih =>
    have hop := hs.grown.operator_eq hid
    have hnode := hs.grown.node_eq hid
    cases runs_stripNode h with
    | done hfind hstate hsession =>
      subst hstate hsession
      exact ⟨hs, mem_of_lookup hfind, .refl _ _ _⟩
    | subset m s₁ hnew hsub hchosen _ hbelow hstate =>
      subst hstate
      rw [hop] at hsub
      rw [hnode] at hchosen
      have hleads : start.Leads id m := .member hsub hchosen
      obtain ⟨hs₁, hfound, hgoes⟩ :=
        ih (s := { s with active := id :: s.active }) hleads.lt_size (hs.withActive _) hbelow
      -- the member could be stripped, so no way from it leads back here
      have hself : ¬Relation.TransGen start.Leads id id :=
        (Strippable.member hsub hchosen (hs₁.strippable _ hfound)).not_reaches_self
      have hkeys := hgoes.not_mem_keys hnew (by simpa using hleads) hself
      refine ⟨hs₁.member hid hsub hchosen hfound hkeys _, List.mem_cons_self, ?_, ?_, ?_⟩
      · simp [hgoes.active_eq]
      · exact List.Subset.trans hgoes.kept (List.subset_cons_self _ _)
      · intro p hp
        rcases List.mem_cons.mp hp with rfl | hp
        · exact .inr ⟨id, List.mem_cons_self, .refl⟩
        · refine (hgoes.reached p hp).imp_right fun ⟨i, hi, hreach⟩ => ⟨id, List.mem_cons_self, ?_⟩
          exact .head (List.mem_singleton.mp hi ▸ hleads) hreach
    | node inputs s₁ c₁ hnew hplain hbelow hcopy hstate =>
      subst hstate
      rw [hop] at hplain
      rw [hs.grown.inputs_eq hid] at hbelow
      have hleads : ∀ j ∈ start.inputs id, start.Leads id j := fun j hj => .input hj
      obtain ⟨hs₁, hinputs, hgoes⟩ :=
        stripInputs_sound ih (fun j hj => inputs_lt_size hj) hs hbelow
      have hkeys := hgoes.not_mem_keys hnew hleads
        (hs₁.strippable_of_inputs hplain hinputs).not_reaches_self
      refine ⟨hs₁.copy hid hplain hinputs hcopy hkeys _, List.mem_cons_self, hgoes.active_eq,
        List.Subset.trans hgoes.kept (List.subset_cons_self _ _), ?_⟩
      intro p hp
      rcases List.mem_cons.mp hp with rfl | hp
      · exact .inr ⟨id, List.mem_cons_self, .refl⟩
      · refine (hgoes.reached p hp).imp_right fun ⟨i, hi, hreach⟩ => ⟨id, List.mem_cons_self, ?_⟩
        exact .head (hleads i hi) hreach

end

/-! ## Why stripping fails -/

/-- What stands in the way of stripping a node: it leads to a subset that is empty, or to one that
leads back to itself. -/
def StuckBy (c : Cluster) (id : NodeId) (e : PlanError) : Prop :=
  ∃ i, Relation.ReflTransGen c.Leads id i ∧ (c.operator i).isSubset = true ∧
    ((c.node i).members = [] ∧ e = .invalidNode i .emptySubset ∨
      Relation.TransGen c.Leads i i ∧ e = .invalidNode i .subsetReachesItself)

theorem StuckBy.head {c : Cluster} {id j : NodeId} {e : PlanError} (h : c.StuckBy j e)
    (hj : c.Leads id j) : c.StuckBy id e := by
  obtain ⟨i, hi, h⟩ := h
  exact ⟨i, .head hj hi, h⟩

theorem members_eq_nil {c : Cluster} {id : NodeId} (h : (c.node id).chosenMember? = none) :
    (c.node id).members = [] := by
  rw [Node.chosenMember?, Option.or_eq_none_iff] at h
  exact List.head?_eq_none_iff.mp h.2

theorem Executable.not_stuckBy {c : Cluster} {id : NodeId} {e : PlanError} (h : c.Executable id) :
    ¬c.StuckBy id e := by
  rintro ⟨i, hi, hsub, ⟨hempty, -⟩ | ⟨hself, -⟩⟩
  · exact (h i hi).1 hsub hempty
  · exact (h i hi).2 hself

/-- The subsets that are under way lead to the node that is stripped. -/
structure Marked (c : Cluster) (id : NodeId) (active : List NodeId) : Prop where
  nodup : active.Nodup
  lt_size : ∀ i ∈ active, i < c.size
  leads : ∀ i ∈ active, Relation.TransGen c.Leads i id

theorem Marked.length_le {c : Cluster} {id : NodeId} {active : List NodeId}
    (h : Marked c id active) : active.length ≤ c.size := by
  have hsub : active.Subperm (List.range c.size) :=
    List.subperm_of_subset h.nodup fun i hi => List.mem_range.mpr (h.lt_size i hi)
  simpa using hsub.length_le

theorem Marked.of_leads {c : Cluster} {id j : NodeId} {active : List NodeId}
    (h : Marked c id active) (hj : c.Leads id j) : Marked c j active :=
  ⟨h.nodup, h.lt_size, fun i hi => (h.leads i hi).tail hj⟩

theorem Marked.cons {c : Cluster} {id j : NodeId} {active : List NodeId} (h : Marked c id active)
    (hid : id < c.size) (hnew : id ∉ active) (hj : c.Leads id j) : Marked c j (id :: active) where
  nodup := List.nodup_cons.mpr ⟨hnew, h.nodup⟩
  lt_size := List.forall_mem_cons.mpr ⟨hid, h.lt_size⟩
  leads := List.forall_mem_cons.mpr ⟨.single hj, fun i hi => (h.leads i hi).tail hj⟩

/-- The bound on the way goes down at a subset too, since there is one more under way. -/
theorem bound_member {total active id m depth : Nat}
    (h : (total - active) * (total + 1) + id < depth + 1) (hm : m < total)
    (hle : active + 1 ≤ total) :
    (total - (active + 1)) * (total + 1) + m < depth := by
  obtain ⟨k, hk⟩ := Nat.exists_eq_add_of_le hle
  have hless : total - (active + 1) = k := by omega
  have hmore : total - active = k + 1 := by omega
  rw [hmore, Nat.succ_mul] at h
  rw [hless]
  omega

section

variable {start c : Cluster} {depth : Nat} {s : Stripping}

theorem stripInputs_fails {ids : List NodeId} {active : List NodeId} {P : PlanError → Prop}
    (ih : ∀ i ∈ ids, ∀ {c s}, s.Sound start c → s.active = active →
      ((stripNode depth i).run s).FailsWith c P)
    (hids : ∀ i ∈ ids, i < start.size) (hs : s.Sound start c) (hactive : s.active = active) :
    ((ids.mapM (stripNode depth)).run s).FailsWith c P := by
  induction ids generalizing s c with
  | nil => exact Planning.failsWith_pure _
  | cons i ids ihids =>
    obtain ⟨hi, hids⟩ := List.forall_mem_cons.mp hids
    obtain ⟨hfirst, hrest⟩ := List.forall_mem_cons.mp ih
    rw [List.mapM_cons, StateT.run_bind]
    refine (hfirst hs hactive).bind fun ⟨result, s₁⟩ c₁ hrun => ?_
    obtain ⟨hs₁, -, hgoes⟩ := stripNode_sound depth hi hs hrun
    rw [StateT.run_bind]
    exact (ihids hrest hids hs₁ (hgoes.active_eq.trans hactive)).bind fun _ _ _ =>
      Planning.failsWith_pure _

/-- Stripping a node fails only at a subset that stands in the way. The bound is never reached:
between two subsets on the way numbers get smaller, and no subset is met twice. -/
theorem stripNode_fails (depth : Nat) {id : NodeId} {s : Stripping} {c : Cluster}
    (hid : id < start.size) (hs : s.Sound start c) (hmarked : Marked start id s.active)
    (hdepth : (start.size - s.active.length) * (start.size + 1) + id < depth) :
    ((stripNode depth id).run s).FailsWith c (start.StuckBy id) := by
  induction depth generalizing id s c with
  | zero => exact absurd hdepth (Nat.not_lt_zero _)
  | succ depth ih =>
    simp only [stripNode, StateT.run_bind, StateT.run_get, pure_bind]
    cases hfind : s.done.lookup id with
    | some r => exact Planning.failsWith_pure _
    | none =>
      refine (Planning.failsWith_read _).lift_run s |>.bind fun ⟨n, s'⟩ c' hread => ?_
      obtain ⟨hread, rfl⟩ := Planning.runs_lift_run.mp hread
      obtain ⟨rfl, rfl⟩ := Planning.runs_read.mp hread
      dsimp only
      rw [hs.grown.node_eq hid]
      split
      · next hsub =>
        have hsub : (start.operator id).isSubset = true := hsub
        -- empty, under way already, or one more under way
        cases hchosen : (start.node id).chosenMember? with
        | none =>
          exact Planning.failsWith_throw
            ⟨id, .refl, hsub, .inl ⟨members_eq_nil hchosen, rfl⟩⟩
        | some m =>
          have hleads : start.Leads id m := .member hsub hchosen
          change Planning.FailsWith (StateT.run (get >>= _) s) _ _
          simp only [StateT.run_bind, StateT.run_get, pure_bind]
          split
          · next hactive =>
            have hactive : id ∈ s.active := by simpa using hactive
            exact Planning.failsWith_throw
              ⟨id, .refl, hsub, .inr ⟨hmarked.leads id hactive, rfl⟩⟩
          · next hinactive =>
            have hnew : id ∉ s.active := by simpa using hinactive
            have hmarked' := hmarked.cons hid hnew hleads
            refine Planning.FailsWith.bind ?_ fun _ _ _ => Planning.failsWith_pure _
            have hdepth' := bound_member hdepth hleads.lt_size hmarked'.length_le
            exact (ih hleads.lt_size (hs.withActive (id :: s.active)) hmarked' hdepth').mono
              fun e he => he.head hleads
      · next hplain =>
        have hplain : (start.operator id).isSubset = false := Bool.eq_false_iff.mpr hplain
        have hinputs : ∀ j ∈ start.inputs id, ∀ {c s'}, Sound s' start c → s'.active = s.active →
            ((stripNode depth j).run s').FailsWith c (start.StuckBy id) := by
          intro j hj c s' hs' hactive
          have hleads : start.Leads id j := .input hj
          refine (ih hleads.lt_size hs' (hactive ▸ hmarked.of_leads hleads) ?_).mono
            fun e he => he.head hleads
          rw [hactive]
          exact Nat.lt_of_lt_of_le (Nat.add_lt_add_left (start.inputs_lt hj) _)
            (Nat.le_of_lt_succ hdepth)
        refine (stripInputs_fails hinputs (fun j hj => inputs_lt_size hj) hs rfl).bind
          fun ⟨inputs, s₁⟩ c₁ hrun => ?_
        obtain ⟨hs₁, hfound, -⟩ :=
          stripInputs_sound (stripNode_sound depth) (fun j hj => inputs_lt_size hj) hs hrun
        have hid₁ := hs₁.grown.lt_size hid
        have hknown : ∀ k ∈ inputs, k < c₁.size := by
          intro k hk
          obtain ⟨j, -, hjk⟩ := Outcome.exists_left_of_forall₂ hfound hk
          exact (hs₁.lt_size _ hjk).2
        obtain ⟨result, c₂, hcopy⟩ := copyOver_succeeds hid₁
          (by rw [hs₁.grown.operator_eq hid, hplain])
          (by rw [hs₁.grown.inputs_eq hid]; exact hfound.length_eq.symm) hknown
        exact (hcopy.failsWith.lift_run s₁).bind fun _ _ _ => Planning.failsWith_pure _

end

/-! ## What stripping leaves -/

section

variable {c c' : Cluster} {root plan : NodeId}

theorem runs_stripSubsets_iff : (stripSubsets root).Runs c plan c' ↔
    ∃ s, ((stripNode ((c.size + 1) * (c.size + 1)) root).run {}).Runs c (plan, s) c' := by
  simp only [stripSubsets, Planning.runs_bind, Planning.runs_read]
  constructor
  · rintro ⟨size, _, ⟨rfl, rfl⟩, h⟩
    rw [StateT.run'_eq, Planning.runs_map] at h
    obtain ⟨⟨plan, s⟩, h, rfl⟩ := h
    exact ⟨s, h⟩
  · rintro ⟨s, h⟩
    refine ⟨_, _, ⟨rfl, rfl⟩, ?_⟩
    rw [StateT.run'_eq, Planning.runs_map]
    exact ⟨_, h, rfl⟩

/-- Stripping succeeds with a sound record of the nodes that the root leads to. -/
theorem stripSubsets_sound (hroot : root < c.size) (h : (stripSubsets root).Runs c plan c') :
    ∃ s : Stripping, s.Sound c c' ∧ (root, plan) ∈ s.done ∧
      ∀ p ∈ s.done, Relation.ReflTransGen c.Leads root p.1 := by
  obtain ⟨s, h⟩ := runs_stripSubsets_iff.mp h
  obtain ⟨hs, hfound, hgoes⟩ := stripNode_sound _ hroot (sound_empty c) h
  refine ⟨s, hs, hfound, fun p hp => ?_⟩
  rcases hgoes.reached p hp with hp | ⟨i, hi, hreach⟩
  · cases hp
  · exact List.mem_singleton.mp hi ▸ hreach

/-- Stripping ends, and fails only at a subset that stands in the way. -/
theorem stripSubsets_fails (hroot : root < c.size) :
    (stripSubsets root).FailsWith c (c.StuckBy root) := by
  have hmarked : Marked c root [] := ⟨.nil, by simp, by simp⟩
  have hdepth : (c.size - ([] : List NodeId).length) * (c.size + 1) + root <
      (c.size + 1) * (c.size + 1) := by
    rw [Nat.succ_mul, List.length_nil, Nat.sub_zero]
    exact Nat.add_lt_add_left (Nat.lt_succ_of_lt hroot) _
  unfold stripSubsets
  refine (Planning.failsWith_read _).bind fun size c' hread => ?_
  obtain ⟨rfl, rfl⟩ := Planning.runs_read.mp hread
  rw [StateT.run'_eq]
  exact (stripNode_fails _ hroot (sound_empty c) hmarked hdepth).map _

theorem stripSubsets_succeeds (hroot : root < c.size) (h : c.Executable root) :
    ∃ plan c', (stripSubsets root).Runs c plan c' :=
  (stripSubsets_fails hroot).exists_runs fun _ => h.not_stuckBy

variable {s : Stripping}

/-- What stands for a node has no subset under it. -/
theorem Stripping.Sound.plain (hs : s.Sound c c') {id result : NodeId} (h : (id, result) ∈ s.done) :
    c'.Plain result := by
  have hstrippable : c.Strippable id := hs.strippable _ h
  induction hstrippable generalizing result with
  | node hplain _ ih =>
    obtain ⟨hop, -, hinputs, -⟩ := hs.copied h hplain
    refine .node (fun k hk => ?_) (hop ▸ hplain)
    obtain ⟨j, hj, hjk⟩ := Outcome.exists_left_of_forall₂ hinputs hk
    exact ih j hj hjk
  | member hsub hchosen _ ih => exact ih (hs.mem_chosen h hsub hchosen)

/-- What stands for a node is related to it by every congruence that relates subsets to the members
that stand for them. -/
theorem Stripping.Sound.related {E : NodeId → NodeId → Prop} (hs : s.Sound c c')
    (hE : c'.Congruence E) (hmember : ∀ i m, i < c.size → (c.operator i).isSubset = true →
      (c.node i).chosenMember? = some m → E i m)
    {id result : NodeId} (h : (id, result) ∈ s.done) : E id result := by
  have hstrippable : c.Strippable id := hs.strippable _ h
  induction hstrippable generalizing result with
  | node hplain _ ih =>
    obtain ⟨hop, -, hinputs, -⟩ := hs.copied h hplain
    obtain ⟨hid, hresult⟩ := hs.lt_size _ h
    rw [← hs.grown.operator_eq hid] at hop hplain
    refine hE.node (hs.grown.lt_size hid) hresult hop hplain ?_
    rw [hs.grown.inputs_eq hid]
    exact Outcome.forall₂_imp_of_mem (fun j hj k _ hjk => ih j hj hjk) hinputs
  | member hsub hchosen _ ih =>
    exact hE.trans (hmember _ _ (hs.lt_size _ h).1 hsub hchosen) (ih (hs.mem_chosen h hsub hchosen))

/-- What stands for a node has its rows. -/
theorem Stripping.Sound.sameRows (hs : s.Sound c c') {id result : NodeId}
    (h : (id, result) ∈ s.done) :
    c'.SameRows id result := by
  refine hs.related (sameRows_congruence c') (fun i m hi hsub hchosen => ?_) h
  rw [← hs.grown.operator_eq hi] at hsub
  rw [← hs.grown.node_eq hi] at hchosen
  exact ⟨fun _ => delivers_member_iff hsub hchosen, (chosenMember?_spec hchosen).2⟩

end

/-! ## Running a plan -/

variable {c c' : Cluster} {id : NodeId}

/-- What a run returns are the rows of the node. -/
theorem delivers_of_runs {root : NodeId} {cancelled : Bool} {rows : List Row}
    (hroot : root < c.size) (h : (run root cancelled).Runs c rows c') : c.Delivers root rows := by
  simp only [run, Planning.runs_bind, Planning.runs_inspect] at h
  obtain ⟨plan, c₁, hstrip, hrows, rfl⟩ := h
  obtain ⟨s, hs, hfound, -⟩ := stripSubsets_sound hroot hstrip
  rw [execute_eq_evaluate] at hrows
  have hdel := delivers_of_evaluate hrows
  exact (hs.grown.delivers_iff hroot).mp (((hs.sameRows hfound).1 rows).mpr hdel)

/-- A run returns the rows of a node that has some. -/
theorem runs_of_delivers {root : NodeId} {rows : List Row} (hroot : root < c.size)
    (h : c.Delivers root rows) : ∃ c', (run root false).Runs c rows c' := by
  obtain ⟨plan, c', hstrip⟩ := stripSubsets_succeeds hroot h.strippable.executable
  obtain ⟨s, hs, hfound, -⟩ := stripSubsets_sound hroot hstrip
  have hdel := ((hs.sameRows hfound).1 rows).mp ((hs.grown.delivers_iff hroot).mpr h)
  refine ⟨c', ?_⟩
  simp only [run, Planning.runs_bind, Planning.runs_inspect]
  refine ⟨plan, c', hstrip, ?_, rfl⟩
  rw [execute_eq_evaluate]
  exact evaluate_of_delivers (hs.plain hfound) hdel

/-- Some run of a node, now or in a later session, ends with the rows. -/
def Returns (c : Cluster) (id : NodeId) (rows : List Row) : Prop :=
  ∃ (d d' : Cluster) (cancelled : Bool), c.Extends d ∧ (run id cancelled).Runs d rows d'

theorem Returns.delivers {id : NodeId} {rows : List Row} (hid : id < c.size)
    (h : c.Returns id rows) : c.Delivers id rows := by
  obtain ⟨d, d', cancelled, hd, hrun⟩ := h
  exact (hd.delivers_iff hid).mp (delivers_of_runs (hd.lt_size hid) hrun)

/-! ## Rows of a node -/

/-- The rows that a node has when it is run; none if the run fails. -/
def ranRows (c : Cluster) (id : NodeId) : List Row :=
  match ((run id false).run.run c).1 with
  | .ok rows => rows
  | .error _ => []

theorem ranRows_of_delivers {rows : List Row} (hid : id < c.size) (h : c.Delivers id rows) :
    c.ranRows id = rows := by
  obtain ⟨c', hrun⟩ := runs_of_delivers hid h
  unfold ranRows
  rw [show (run id false).run.run c = (.ok rows, c') from hrun]

theorem ranRows_delivers (hid : id < c.size) :
    c.ranRows id = [] ∨ c.Delivers id (c.ranRows id) := by
  unfold ranRows
  rcases hrun : (run id false).run.run c with ⟨e | rows, c'⟩
  · exact .inl rfl
  · exact .inr (delivers_of_runs hid hrun)

theorem runs_ranRows {c : Cluster} {id : NodeId}
    (h : ((run id false).run.run c).1.isOk = true) :
    (run id false).Runs c (c.ranRows id) ((run id false).run.run c).2 := by
  unfold ranRows Planning.Runs
  rcases hrun : (run id false).run.run c with ⟨e | rows, c'⟩
  · rw [hrun] at h
    cases h
  · rfl

theorem returns_of_ranRows {c : Cluster} {id : NodeId} {rows : List Row}
    (h : ((run id false).run.run c).1.isOk = true) (hrows : c.ranRows id = rows) :
    c.Returns id rows := hrows ▸ ⟨c, _, false, .refl c, runs_ranRows h⟩

theorem exists_runs {c : Cluster} {id : NodeId} {rows : List Row}
    (h : ((run id false).run.run c).1.isOk = true) (hrows : c.ranRows id = rows) :
    ∃ c', (run id false).Runs c rows c' := by
  rw [← hrows]
  exact ⟨_, runs_ranRows h⟩

theorem Extends.ranRows_eq (h : c.Extends c') (hid : id < c.size) :
    c'.ranRows id = c.ranRows id := by
  rcases ranRows_delivers hid with hnil | hdel
  · rcases ranRows_delivers (h.lt_size hid) with hnil' | hdel'
    · rw [hnil, hnil']
    · exact (ranRows_of_delivers hid ((h.delivers_iff hid).mp hdel')).symm
  · exact ranRows_of_delivers (h.lt_size hid) ((h.delivers_iff hid).mpr hdel)

end QueryPlan.Cluster
