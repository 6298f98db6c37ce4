import QueryPlan.Proofs.Session.Replacement
/-!
# Which nodes a replacement copies

A rebuild that offers one node for another one keeps on record what stands for each node it has seen.
What is on record explains itself: what stands for the target is what was offered, and what stands for
any other node is that node over what stands for its inputs. Since a node that is on record is not
rebuilt, every new node stands for one old node only, and since the target goes away where it was
read, the old nodes with a copy are those that read the target.
-/
namespace QueryPlan.Cluster

/-- The first of the nodes is on record with the second one as its result. -/
def Stands (record : List Rebuilt) (i j : NodeId) : Prop :=
  ∃ r ∈ record, r.before = i ∧ r.result = j

theorem stands_cons {record : List Rebuilt} {r : Rebuilt} {i j : NodeId} :
    Stands (r :: record) i j ↔ r.before = i ∧ r.result = j ∨ Stands record i j := by
  simp [Stands]

/-- What stands for a node other than the target: the node over what stands for its inputs. It is the
node itself if the inputs stay, and a new node if they do not. -/
structure StandsOver (start c : Cluster) (stands : NodeId → NodeId → Prop) (i j : NodeId) : Prop where
  operator_eq : c.operator j = start.operator i
  traits_eq : c.traits j = start.traits i
  inputs : List.Forall₂ stands (start.inputs i) (c.inputs j)
  kept : c.inputs j = start.inputs i → j = i
  old : j < start.size → j = i

/-- What holds of the record while a target is replaced, where `start` is the session in which this
begins. -/
structure Replacing (start : Cluster) (target other : NodeId) (record : List Rebuilt) (c : Cluster) :
    Prop where
  grown : start.Extends c
  lt_size : ∀ {i j}, Stands record i j → i < start.size ∧ j < c.size
  unique : ∀ {i j k}, Stands record i j → Stands record i k → j = k
  target_eq : ∀ {j}, Stands record target j → j = other
  copied : ∀ {i j}, Stands record i j → i ≠ target → StandsOver start c (Stands record) i j
  fresh : ∀ n, start.size ≤ n → n < c.size → ∃! i, i ≠ target ∧ Stands record i n

variable {start c c' : Cluster} {target other id result i j : NodeId} {record record' : List Rebuilt}

theorem not_stands_nil : ¬Stands [] i j := by
  rintro ⟨r, hr, -⟩
  cases hr

theorem replacing_nil (c : Cluster) (target other : NodeId) : Replacing c target other [] c where
  grown := .refl c
  lt_size h := absurd h not_stands_nil
  unique h := absurd h not_stands_nil
  target_eq h := absurd h not_stands_nil
  copied h := absurd h not_stands_nil
  fresh _ hn hlt := absurd hlt (Nat.not_lt.mpr hn)

theorem StandsOver.mono {stands stands' : NodeId → NodeId → Prop}
    (h : StandsOver start c stands i j) (hj : j < c.size) (hc : c.Extends c')
    (hstands : ∀ i j, stands i j → stands' i j) : StandsOver start c' stands' i j where
  operator_eq := by rw [hc.operator_eq hj, h.operator_eq]
  traits_eq := by rw [hc.traits_eq hj, h.traits_eq]
  inputs := by
    rw [hc.inputs_eq hj]
    exact h.inputs.imp fun i j => hstands i j
  kept heq := h.kept (by rw [← hc.inputs_eq hj, heq])
  old := h.old

namespace Replacing

/-! ## Which nodes stay -/

/-- A node that does not read the target stands for itself. -/
theorem eq_of_not_inPlan (h : Replacing start target other record c) (hij : Stands record i j)
    (hnot : ¬start.InPlan i target) : j = i := by
  -- on the number of the node: its inputs have smaller numbers
  induction i using Nat.strongRecOn generalizing j with
  | ind i ih =>
    have hne : i ≠ target := by
      rintro rfl
      exact hnot .root
    have hcopied := h.copied hij hne
    have hinputs : List.Forall₂ Eq (start.inputs i) (c.inputs j) :=
      Outcome.forall₂_imp_of_mem (fun k hk l _ hkl => (ih k (start.inputs_lt hk) hkl fun hkt =>
        hnot (InPlan.trans (.input .root hk) hkt)).symm) hcopied.inputs
    exact hcopied.kept (List.forall₂_eq_eq_eq ▸ hinputs).symm

/-- What stands for a node that reads the target is new. -/
theorem new_of_inPlan (h : Replacing start target other record c) (hother : other ≠ target)
    (hij : Stands record i j) (hit : start.InPlan i target) (hne : i ≠ target) : start.size ≤ j := by
  -- on the number of the node: its inputs have smaller numbers
  induction i using Nat.strongRecOn generalizing j with
  | ind i ih =>
    have hcopied := h.copied hij hne
    by_contra hold
    -- an old node is the node itself, so all of its inputs would stand for themselves
    have hi : i < start.size := (h.lt_size hij).1
    have hsame : List.Forall₂ (Stands record) (start.inputs i) (start.inputs i) := by
      have hinputs := hcopied.inputs
      rwa [hcopied.old (Nat.lt_of_not_le hold), h.grown.inputs_eq hi] at hinputs
    obtain ⟨k, hk, hkt⟩ := hit.eq_or_input.resolve_left (Ne.symm hne)
    have hself : Stands record k k := List.forall₂_same.mp hsame k hk
    by_cases htarget : k = target
    · subst htarget
      exact hother (h.target_eq hself).symm
    · have hnew := ih k (start.inputs_lt hk) hself hkt htarget
      exact Nat.not_lt.mpr hnew (inputs_lt_size hk)

/-! ## New entries -/

/-- An entry of another node makes no second copy. -/
theorem fresh_cons {r : Rebuilt} {n : NodeId} (h : ∃! i, i ≠ target ∧ Stands record i n)
    (hother : r.before ≠ target → r.result ≠ n) :
    ∃! i, i ≠ target ∧ Stands (r :: record) i n := by
  obtain ⟨i, ⟨hi, hin⟩, hunique⟩ := h
  refine ⟨i, ⟨hi, stands_cons.mpr (.inr hin)⟩, fun k ⟨hk, hkn⟩ => ?_⟩
  rcases stands_cons.mp hkn with ⟨rfl, heq⟩ | hkn
  · exact absurd heq (hother hk)
  · exact hunique k ⟨hk, hkn⟩

/-- A node that was not on record has one result once it is. -/
theorem unique_cons {r : Rebuilt} (h : ∀ {i j k}, Stands record i j → Stands record i k → j = k)
    (hnew : ∀ j, ¬Stands record r.before j) {i j k : NodeId} (hij : Stands (r :: record) i j)
    (hik : Stands (r :: record) i k) : j = k := by
  rcases stands_cons.mp hij with ⟨rfl, rfl⟩ | hij
  · rcases stands_cons.mp hik with ⟨-, rfl⟩ | hik
    · rfl
    · exact absurd hik (hnew k)
  · rcases stands_cons.mp hik with ⟨rfl, -⟩ | hik
    · exact absurd hij (hnew j)
    · exact h hij hik

/-- An entry for the target: what was offered stands for it. -/
theorem exchange (h : Replacing start target other record c) (htarget : target < start.size)
    (hother : other < start.size) (hnew : ∀ j, ¬Stands record target j) (copied : NodeId) :
    Replacing start target other (⟨target, copied, other⟩ :: record) c where
  grown := h.grown
  lt_size hij := by
    rcases stands_cons.mp hij with ⟨rfl, rfl⟩ | hij
    · exact ⟨htarget, h.grown.lt_size hother⟩
    · exact h.lt_size hij
  unique := unique_cons h.unique hnew
  target_eq hj := by
    rcases stands_cons.mp hj with ⟨-, rfl⟩ | hj
    · rfl
    · exact h.target_eq hj
  copied hij hne := by
    rcases stands_cons.mp hij with ⟨rfl, -⟩ | hij
    · exact absurd rfl hne
    · exact (h.copied hij hne).mono (h.lt_size hij).2 (.refl c) fun _ _ => stands_cons.mpr ∘ .inr
  fresh n hn hlt := fresh_cons (h.fresh n hn hlt) fun hne => absurd rfl hne

section

variable {inputs : List NodeId}

theorem standsOver_copy (h : Replacing start target other record c) (hid : id < start.size)
    (hinputs : List.Forall₂ (Stands record) (start.inputs id) inputs)
    (hcopy : (copyOver id inputs).Runs c result c') :
    StandsOver start c' (Stands record) id result := by
  have hcopied := runs_copyOver (h.grown.lt_size hid) hcopy
  refine ⟨?_, ?_, ?_, fun heq => ?_, fun hold => ?_⟩
  · rw [hcopied.operator_eq, h.grown.operator_eq hid]
  · rw [traits_eq_of_runs_copyOver hcopy, h.grown.traits_eq hid]
  · rw [hcopied.inputs_eq]
    exact hinputs
  · rw [hcopied.inputs_eq, ← h.grown.inputs_eq hid] at heq
    exact (hcopied.eq_of_inputs heq).1
  · rcases hcopied.eq_or_new with heq | ⟨rfl, -⟩
    · exact heq
    · exact absurd h.grown.size_le (Nat.not_le_of_lt hold)

/-- If the copy is a new node, it is the copy of this one node. -/
theorem fresh_copy (h : Replacing start target other record c) (hid : id < start.size)
    (hne : id ≠ target) (hcopy : (copyOver id inputs).Runs c result c') {n : NodeId}
    (hn : start.size ≤ n) (hlt : n < c'.size) :
    ∃! i, i ≠ target ∧ Stands (⟨id, result, result⟩ :: record) i n := by
  rcases created_of_runs_copyOver hcopy with ⟨-, rfl, rfl⟩ | ⟨-, hcreated⟩
  · exact fresh_cons (h.fresh n hn hlt) fun _ heq => absurd hid (Nat.not_lt.mpr (hn.trans_eq heq.symm))
  · rw [hcreated.size_eq] at hlt
    rcases Nat.lt_succ_iff_lt_or_eq.mp hlt with hlt | rfl
    · exact fresh_cons (h.fresh n hn hlt) fun _ heq => Nat.ne_of_lt hlt (heq.symm.trans hcreated.id_eq)
    · refine ⟨id, ⟨hne, stands_cons.mpr (.inl ⟨rfl, hcreated.id_eq⟩)⟩, fun k ⟨_, hk⟩ => ?_⟩
      rcases stands_cons.mp hk with ⟨rfl, -⟩ | hk
      · rfl
      · exact absurd (h.lt_size hk).2 (Nat.lt_irrefl _)

/-- An entry for any other node, once there are entries for its inputs. -/
theorem copy (h : Replacing start target other record c) (hid : id < start.size) (hne : id ≠ target)
    (hinputs : List.Forall₂ (Stands record) (start.inputs id) inputs)
    (hcopy : (copyOver id inputs).Runs c result c') (hnew : ∀ j, ¬Stands record id j) :
    Replacing start target other (⟨id, result, result⟩ :: record) c' := by
  have hcopied := runs_copyOver (h.grown.lt_size hid) hcopy
  have hmore : ∀ i j, Stands record i j → Stands (⟨id, result, result⟩ :: record) i j :=
    fun _ _ => stands_cons.mpr ∘ .inr
  refine ⟨h.grown.trans hcopied.grows, fun hij => ?_, unique_cons h.unique hnew, fun hj => ?_,
    fun hij hit => ?_, fun n hn hlt => h.fresh_copy hid hne hcopy hn hlt⟩
  · rcases stands_cons.mp hij with ⟨rfl, rfl⟩ | hij
    · exact ⟨hid, hcopied.lt_size⟩
    · exact ⟨(h.lt_size hij).1, hcopied.grows.lt_size (h.lt_size hij).2⟩
  · rcases stands_cons.mp hj with ⟨heq, -⟩ | hj
    · exact absurd heq hne
    · exact h.target_eq hj
  · rcases stands_cons.mp hij with ⟨rfl, rfl⟩ | hij
    · exact (h.standsOver_copy hid hinputs hcopy).mono hcopied.lt_size (.refl c') hmore
    · exact (h.copied hij hit).mono (h.lt_size hij).2 hcopied.grows hmore

end

/-! ## Rebuilding keeps the record -/

/-- The record goes on: what was on record stays, and new entries are of nodes in the plans of the given
ones. -/
structure Continues (start : Cluster) (roots : List NodeId) (record record' : List Rebuilt) : Prop where
  kept : ∀ i j, Stands record i j → Stands record' i j
  reached : ∀ i j, Stands record' i j → Stands record i j ∨ ∃ root ∈ roots, start.InPlan root i

/-- A node that was not on record is not on record when its inputs have been rebuilt. -/
theorem Continues.not_stands (h : Continues start (start.inputs id) record record')
    (hnew : ∀ r ∈ record, r.before ≠ id) (j : NodeId) : ¬Stands record' id j := by
  intro hid
  rcases h.reached id j hid with ⟨r, hr, hbefore, -⟩ | ⟨k, hk, hkid⟩
  · exact hnew r hr hbefore
  · exact Nat.not_le_of_lt (start.inputs_lt hk) hkid.le

theorem Continues.cons {r : Rebuilt} (h : Continues start (start.inputs id) record record')
    (hr : r.before = id) : Continues start [id] record (r :: record') := by
  refine ⟨fun i j hij => stands_cons.mpr (.inr (h.kept i j hij)), fun i j hij => ?_⟩
  rcases stands_cons.mp hij with ⟨rfl, -⟩ | hij
  · exact .inr ⟨id, List.mem_cons_self, hr ▸ .root⟩
  · refine (h.reached i j hij).imp_right fun ⟨k, hk, hki⟩ => ⟨id, List.mem_cons_self, ?_⟩
    exact InPlan.trans (.input .root hk) hki

end Replacing

open Replacing

/-- Rebuilding a node keeps the record sound, puts the node on it, and only nodes of its plan. -/
def Rebuilds (start : Cluster) (target other id : NodeId) : Prop :=
  ∀ {record record' : List Rebuilt} {c c' : Cluster} {result : NodeId}, id < start.size →
    Replacing start target other record c →
    ((rebuildNode (fun id => pure (if id = target then some other else none)) id).run record).Runs c
      (result, record') c' →
    Replacing start target other record' c' ∧ Stands record' id result ∧
      Continues start [id] record record'

theorem rebuildInputs_replacing {below : List { j : NodeId // j < id }}
    (ih : ∀ j < id, Rebuilds start target other j) (hid : id < start.size)
    (hrecord : Replacing start target other record c) {inputs : List NodeId}
    (h : ((below.mapM fun x =>
      rebuildNode (fun id => pure (if id = target then some other else none)) x.1).run record).Runs c
        (inputs, record') c') :
    Replacing start target other record' c' ∧
      List.Forall₂ (Stands record') (below.map Subtype.val) inputs ∧
      Continues start (below.map Subtype.val) record record' := by
  induction below generalizing record c inputs with
  | nil =>
    simp only [List.mapM_nil, StateT.run_pure, Planning.runs_pure, Prod.mk.injEq] at h
    obtain ⟨⟨rfl, rfl⟩, rfl⟩ := h
    exact ⟨hrecord, .nil, fun _ _ hij => hij, fun _ _ => .inl⟩
  | cons j below ihbelow =>
    simp only [List.mapM_cons, StateT.run_bind, Planning.runs_bind, StateT.run_pure,
      Planning.runs_pure, Prod.mk.injEq] at h
    obtain ⟨⟨result, record₁⟩, c₁, hj, ⟨rest, record₂⟩, c₂, hrest, ⟨rfl, rfl⟩, rfl⟩ := h
    obtain ⟨hrecord₁, hresult, hgoes₁⟩ := ih j.1 j.2 (Nat.lt_trans j.2 hid) hrecord hj
    obtain ⟨hrecord₂, hresults, hgoes₂⟩ := ihbelow hrecord₁ hrest
    refine ⟨hrecord₂, .cons (hgoes₂.kept _ _ hresult) hresults,
      fun i k hik => hgoes₂.kept i k (hgoes₁.kept i k hik), fun i k hik => ?_⟩
    rcases hgoes₂.reached i k hik with hik | ⟨root, hroot, hreach⟩
    · rcases hgoes₁.reached i k hik with hik | ⟨root, hroot, hreach⟩
      · exact .inl hik
      · exact .inr ⟨root, List.mem_singleton.mp hroot ▸ List.mem_cons_self, hreach⟩
    · exact .inr ⟨root, List.mem_cons_of_mem _ hroot, hreach⟩

theorem rebuildNode_replacing (htarget : target < start.size) (hother : other < start.size)
    (id : NodeId) : Rebuilds start target other id := by
  -- on the number of the node: its inputs have smaller numbers
  induction id using Nat.strongRecOn with
  | ind id ih =>
    intro record record' c c' result hid hrecord h
    cases runs_rebuildNode h with
    | done r hr hbefore hresult hsame hc =>
      subst hsame hc
      exact ⟨hrecord, ⟨r, hr, hbefore, hresult⟩, fun _ _ hij => hij, fun _ _ => .inl⟩
    | copy inputs record₁ c₁ copied c₂ hnew hinputs hcopy hsettle hstate =>
      subst hstate
      obtain ⟨hrecord₁, hstands, hgoes⟩ := rebuildInputs_replacing ih hid hrecord hinputs
      rw [inputsBelow_map_val, hrecord.grown.inputs_eq hid] at hstands hgoes
      have hnew₁ := hgoes.not_stands hnew
      obtain ⟨rfl, hsettled⟩ := runs_settle_offer hsettle
      refine ⟨?_, stands_cons.mpr (.inl ⟨rfl, rfl⟩), hgoes.cons rfl⟩
      have hcopied := runs_copyOver (hrecord₁.grown.lt_size hid) hcopy
      by_cases heq : id = target
      · -- what the target reads stays, so the target is not copied
        subst heq
        have hsame : List.Forall₂ Eq (start.inputs id) inputs :=
          Outcome.forall₂_imp_of_mem (fun k hk l _ hkl => (hrecord₁.eq_of_not_inPlan hkl fun hkid =>
            Nat.not_le_of_lt (start.inputs_lt hk) hkid.le).symm) hstands
        rw [List.forall₂_eq_eq_eq, ← hrecord₁.grown.inputs_eq hid] at hsame
        obtain ⟨rfl, rfl⟩ := hcopied.eq_of_inputs hsame.symm
        obtain ⟨-, rfl⟩ := hsettled.resolve_right fun h => h.1 rfl
        exact hrecord₁.exchange htarget hother hnew₁ _
      · have hne : copied ≠ target := by
          rcases hcopied.eq_or_new with rfl | ⟨rfl, -⟩
          · exact heq
          · exact (Nat.ne_of_lt (Nat.lt_of_lt_of_le htarget hrecord₁.grown.size_le)).symm
        obtain ⟨-, rfl⟩ := hsettled.resolve_left fun h => hne h.1
        exact hrecord₁.copy hid heq hstands hcopy hnew₁

/-- Replacing a node leaves a sound record with the root on it. -/
theorem replace_replacing {root : NodeId} (hroot : root < c.size) (htarget : target < c.size)
    (hother : other < c.size) (h : (replace root target other).Runs c result c') :
    ∃ record, Replacing c target other record c' ∧ Stands record root result ∧
      ∀ i j, Stands record i j → c.InPlan root i := by
  simp only [replace, rebuild, Planning.runs_bind, Planning.runs_pure] at h
  obtain ⟨⟨result', record⟩, c₁, ⟨⟨result'', record'⟩, c₂, h, heq, rfl⟩, rfl, rfl⟩ := h
  cases heq
  obtain ⟨hrecord, hstands, hgoes⟩ :=
    rebuildNode_replacing htarget hother root hroot (replacing_nil c target other) h
  refine ⟨record', hrecord, hstands, fun i j hij => ?_⟩
  rcases hgoes.reached i j hij with hij | ⟨k, hk, hki⟩
  · exact absurd hij not_stands_nil
  · exact List.mem_singleton.mp hk ▸ hki

end QueryPlan.Cluster
