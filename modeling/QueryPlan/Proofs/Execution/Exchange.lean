import QueryPlan.Proofs.Execution.Conformity
import QueryPlan.Proofs.Execution.Executable
import QueryPlan.Proofs.Expr.Equality
import QueryPlan.Proofs.Session.Copies
/-!
# Exchanging one plan for another

A node may be replaced by another one that ends with the same rows: whatever reads the node then ends
with the rows, or the error, that it ended with before. Only what reads the node is copied, and each
of its users once, however often it is shared.
-/
namespace QueryPlan.Cluster

/-! ## Nodes with one outcome -/

/-- What running the plan under a node ends with: its rows, or the error. -/
def outcome (c : Cluster) (id : NodeId) (cancelled : Bool) : Except PlanError (List Row) :=
  ((run id cancelled).run.run c).1

section

variable {c c' : Cluster} {cancelled : Bool} {id i j : NodeId}

theorem outcome_plain (hid : id < c.size) (hplain : c.Plain id) (cancelled : Bool) :
    c.outcome id cancelled = c.evaluate cancelled id := by
  rw [outcome, run_plain hid hplain]

theorem Extends.evaluate_eq (h : c.Extends c') (hid : id < c.size) (cancelled : Bool) :
    c'.evaluate cancelled id = c.evaluate cancelled id := by
  -- on the number of the node: its inputs have smaller numbers
  induction id using Nat.strongRecOn with
  | ind id ih =>
    have hinputs : (c.inputs id).mapM (c'.evaluate cancelled) =
        (c.inputs id).mapM (c.evaluate cancelled) :=
      Outcome.mapM_eq_of_forall₂
        (List.forall₂_same.mpr fun j hj => ih j (c.inputs_lt hj) (inputs_lt_size hj))
    rw [Cluster.evaluate_eq, Cluster.evaluate_eq c, h.inputs_eq hid, hinputs]
    exact congrArg _ (funext (h.nodeRows_eq hid cancelled))

theorem Extends.plain (h : c.Extends c') (hid : id < c.size) (hplain : c.Plain id) : c'.Plain id := by
  induction hplain with
  | node _ hown ih =>
    refine .node (fun j hj => ?_) (by rw [h.operator_eq hid]; exact hown)
    rw [h.inputs_eq hid] at hj
    exact ih j hj (inputs_lt_size hj)

/-- Nodes over plans without subsets are such plans. -/
theorem plain_congruence (c : Cluster) : c.Congruence fun i j => c.Plain i → c.Plain j where
  refl _ := id
  trans hij hjk := hjk ∘ hij
  node {i j} _ _ hop hsub hinputs hplain := by
    cases hplain with
    | node hbelow _ =>
      refine .node (fun k hk => ?_) (hop ▸ hsub)
      obtain ⟨l, hl, hlk⟩ := Outcome.exists_left_of_forall₂ hinputs hk
      exact hlk (hbelow l hl)

/-- The nodes have as many columns and the same outcome, errors included. -/
def SameOutcome (c : Cluster) (cancelled : Bool) (i j : NodeId) : Prop :=
  c.evaluate cancelled i = c.evaluate cancelled j ∧ c.arity i = c.arity j

/-- Every operator has one outcome over inputs with one outcome each. -/
theorem sameOutcome_congruence (c : Cluster) (cancelled : Bool) :
    c.Congruence (c.SameOutcome cancelled) where
  refl _ := ⟨rfl, rfl⟩
  trans hij hjk := ⟨hij.1.trans hjk.1, hij.2.trans hjk.2⟩
  node {i j} hi hj hop hsub hinputs := by
    have harities : (c.inputs i).map c.arity = (c.inputs j).map c.arity := by
      rw [← List.forall₂_eq_eq_eq, List.forall₂_map_left_iff, List.forall₂_map_right_iff]
      exact hinputs.imp fun _ _ h => h.2
    refine ⟨?_, arity_congr hi hj hop harities⟩
    rw [evaluate_eq, evaluate_eq, Outcome.mapM_eq_of_forall₂ (hinputs.imp fun _ _ h => h.1)]
    exact congrArg _ (funext fun rows => (nodeRows_congr hop hsub harities rows).symm)

end

/-! ## What stands for each node -/

/-- What replacing a target makes of the plan under a root, where `form` says what stands for each node
of the plan. The nodes that do not read the target stay, and each other one above it has a copy of
its own, over what stands for its inputs. There are no other new nodes. -/
structure Exchanged (c : Cluster) (root target other : NodeId) (c' : Cluster) (result : NodeId)
    (form : NodeId → NodeId) : Prop where
  grown : c.Extends c'
  root_eq : form root = result
  target_eq : c.InPlan root target → form target = other
  kept : ∀ i, c.InPlan root i → ¬c.InPlan i target → form i = i
  copied : ∀ i, c.InPlan root i → c.InPlan i target → i ≠ target →
    c.size ≤ form i ∧ form i < c'.size ∧ c'.operator (form i) = c.operator i ∧
      c'.traits (form i) = c.traits i ∧ c'.inputs (form i) = (c.inputs i).map form
  once : ∀ n, c.size ≤ n → n < c'.size →
    ∃! i, (c.InPlan root i ∧ c.InPlan i target ∧ i ≠ target) ∧ form i = n

/-- What stands for a node according to a record, and the node itself if it is not on record. -/
def formOf (record : List Rebuilt) (i : NodeId) : NodeId :=
  ((record.find? (·.before == i)).map (·.result)).getD i

section

variable {start c c' : Cluster} {root target other result i j : NodeId} {record : List Rebuilt}

theorem Replacing.form_eq (h : Replacing start target other record c) (hij : Stands record i j) :
    formOf record i = j := by
  have hsome : (record.find? (·.before == i)).isSome = true := by
    obtain ⟨r, hr, hbefore, -⟩ := hij
    exact List.find?_isSome.mpr ⟨r, hr, beq_iff_eq.mpr hbefore⟩
  obtain ⟨r, hr⟩ := Option.isSome_iff_exists.mp hsome
  have hstands : Stands record i r.result :=
    ⟨r, List.mem_of_find?_eq_some hr, by simpa using List.find?_some hr, rfl⟩
  rw [formOf, hr]
  exact h.unique hstands hij

theorem Replacing.map_form (h : Replacing start target other record c) {is js : List NodeId}
    (hstands : List.Forall₂ (Stands record) is js) : js = is.map (formOf record) := by
  induction hstands with
  | nil => rfl
  | cons hhead _ ih => rw [List.map_cons, h.form_eq hhead, ih]

/-- Once the root is on record, so is every node of its plan that reads the target. -/
theorem Replacing.stands_form (h : Replacing start target other record c)
    (hroot : Stands record root result) (hi : start.InPlan root i) (hit : start.InPlan i target) :
    Stands record i (formOf record i) := by
  induction hi with
  | root => exact (h.form_eq hroot).symm ▸ hroot
  | @input user k _ hk ih =>
    have huser : Stands record user (formOf record user) := ih (InPlan.trans (.input .root hk) hit)
    have hne : user ≠ target := fun heq =>
      Nat.not_le_of_lt (start.inputs_lt hk) (heq ▸ hit.le)
    obtain ⟨l, -, hkl⟩ := Outcome.exists_right_of_forall₂ (h.copied huser hne).inputs hk
    exact (h.form_eq hkl).symm ▸ hkl

/-- A node that does not read the target stays, whether it is on record or not. -/
theorem Replacing.form_eq_self (h : Replacing start target other record c)
    (hnot : ¬start.InPlan i target) : formOf record i = i := by
  cases hfind : record.find? (·.before == i) with
  | none => rw [formOf, hfind, Option.map_none, Option.getD_none]
  | some r =>
    have hstands : Stands record i r.result :=
      ⟨r, List.mem_of_find?_eq_some hfind, by simpa using List.find?_some hfind, rfl⟩
    rw [h.form_eq hstands, h.eq_of_not_inPlan hstands hnot]

theorem exchanged_of_replacing (h : Replacing c target other record c')
    (hne : other ≠ target) (hroot : Stands record root result)
    (hreached : ∀ i j, Stands record i j → c.InPlan root i) :
    Exchanged c root target other c' result (formOf record) where
  grown := h.grown
  root_eq := h.form_eq hroot
  target_eq hi := h.target_eq (h.stands_form hroot hi .root)
  kept _ _ hnot := h.form_eq_self hnot
  copied i hi hit hitarget := by
    have hstands := h.stands_form hroot hi hit
    have hcopied := h.copied hstands hitarget
    exact ⟨h.new_of_inPlan hne hstands hit hitarget, (h.lt_size hstands).2, hcopied.operator_eq,
      hcopied.traits_eq, h.map_form hcopied.inputs⟩
  once n hn hlt := by
    obtain ⟨i, ⟨hitarget, hin⟩, hunique⟩ := h.fresh n hn hlt
    have hit : c.InPlan i target := by
      by_contra hnot
      have heq := h.eq_of_not_inPlan hin hnot
      exact Nat.not_lt.mpr hn (heq ▸ (h.lt_size hin).1)
    refine ⟨i, ⟨⟨hreached i n hin, hit, hitarget⟩, h.form_eq hin⟩, ?_⟩
    rintro k ⟨⟨hk, hkt, hktarget⟩, rfl⟩
    exact hunique k ⟨hktarget, h.stands_form hroot hk hkt⟩

end

/-! ## What the new plan ends with -/

section

variable {c c' : Cluster} {root target other result : NodeId}

/-- Where the target and what replaces it have the column types of each other, the new root has those
of the old one. -/
theorem replace_compatible (hroot : root < c.size) (htarget : target < c.size)
    (hother : other < c.size)
    (hsame : (c.rowType target).isCompatible (c.rowType other) = true)
    (h : (replace root target other).Runs c result c') :
    (c'.rowType result).isCompatible (c.rowType root) = true := by
  have hgrow : c.Extends c' := (grows_replace root target other).runs h
  have hrel : c'.SameTypes target other := by
    rw [SameTypes, hgrow.rowType_eq htarget, hgrow.rowType_eq hother]
    exact hsame
  have hresult := (replace_related (sameTypes_congruence c') hroot hother hrel h (.refl c')).2
  rw [SameTypes, hgrow.rowType_eq hroot, RowType.isCompatible_iff] at hresult
  exact RowType.isCompatible_iff.mpr hresult.symm

/-- Where the target and what replaces it end with the same, the new root ends with what the old one
ends with. -/
theorem replace_outcome (hroot : root < c.size) (htarget : target < c.size) (hother : other < c.size)
    (hplain : c.Plain root) (hplain' : c.Plain other)
    (hsame : (c.rowType target).isCompatible (c.rowType other) = true)
    (h : (replace root target other).Runs c result c') {cancelled : Bool}
    (houtcome : c.outcome target cancelled = c.outcome other cancelled) :
    c'.outcome result cancelled = c.outcome root cancelled := by
  have hgrow : c.Extends c' := (grows_replace root target other).runs h
  have hplainRoot : c'.Plain root := hgrow.plain hroot hplain
  rw [outcome_plain hroot hplain, ← hgrow.evaluate_eq hroot]
  by_cases hread : c.InPlan root target
  · have hplainTarget : c.Plain target := hplain.inPlan hread
    rw [outcome_plain htarget hplainTarget, outcome_plain hother hplain', ← hgrow.evaluate_eq htarget,
      ← hgrow.evaluate_eq hother] at houtcome
    have harity : c'.arity target = c'.arity other := by
      rw [hgrow.arity_eq htarget, hgrow.arity_eq hother]
      exact RowType.arity_eq_of_isCompatible hsame
    obtain ⟨hlt, hresult⟩ := replace_related (sameOutcome_congruence c' cancelled) hroot hother
      ⟨houtcome, harity⟩ h (.refl c')
    have hplainResult : c'.Plain result :=
      (replace_related (plain_congruence c') hroot hother (fun _ => hgrow.plain hother hplain') h
        (.refl c')).2 hplainRoot
    rw [outcome_plain hlt hplainResult, hresult.1]
  · have hstays : result = root := by
      refine (replace_replaced hroot htarget hother h (.refl c')).eq_of_forall_not ?_
      rintro k hk rfl
      exact hread ((hgrow.inPlan_iff hroot).mp hk)
    rw [hstays, outcome_plain (hgrow.lt_size hroot) hplainRoot]

/-- Replacing a node by another one of its column types succeeds and keeps the column types of the root.
It copies each node above the target once and changes no other one, and if the target and what
replaces it end with the same, so do the old plan and the new one. -/
theorem replace_exchanges (hroot : root < c.size) (htarget : target < c.size) (hother : other < c.size)
    (hplain : c.Plain root) (hplain' : c.Plain other) (hne : other ≠ target)
    (hsame : (c.rowType target).isCompatible (c.rowType other) = true) :
    ∃ result c', (replace root target other).Runs c result c' ∧
      (c'.rowType result).isCompatible (c.rowType root) = true ∧
      (∃ form, Exchanged c root target other c' result form) ∧
      ∀ cancelled, c.outcome target cancelled = c.outcome other cancelled →
        c'.outcome result cancelled = c.outcome root cancelled := by
  obtain ⟨result, c', h⟩ := replace_succeeds hroot htarget hother hsame
  obtain ⟨record, hrecord, hstands, hreached⟩ := replace_replacing hroot htarget hother h
  exact ⟨result, c', h, replace_compatible hroot htarget hother hsame h,
    ⟨_, exchanged_of_replacing hrecord hne hstands hreached⟩,
    fun _ => replace_outcome hroot htarget hother hplain hplain' hsame h⟩

/-- Digits, a filter over them that keeps all rows, and a union in which the filter is read twice, once
through another filter. -/
def digitUses : Planning NodeId := do
  let digits ← createDefault twoDigits []
  let filtered ← createDefault (.filter .none (.bool true)) [digits]
  let again ← createDefault (.filter .none (.bool true)) [filtered]
  createDefault (.union .none true) [again, filtered, again]

def digitUsesSession : Cluster := digitUses.leaves (Cluster.start ⟨[]⟩ default default)

theorem replace_exchanges_digits :
    (3 < digitUsesSession.size ∧ digitUsesSession.Plain 3 ∧ digitUsesSession.Plain 0 ∧
      (digitUsesSession.rowType 1).isCompatible (digitUsesSession.rowType 0) = true ∧
      digitUsesSession.outcome 1 false = digitUsesSession.outcome 0 false) ∧
    ∃ result c', (replace 3 1 0).Runs digitUsesSession result c' ∧
      (∃ form, Exchanged digitUsesSession 3 1 0 c' result form) ∧
      c'.outcome result false = digitUsesSession.outcome 3 false := by
  have hroot : 3 < digitUsesSession.size := by decide +kernel
  have hsubsets : ∀ i < digitUsesSession.size, (digitUsesSession.operator i).isSubset = false := by
    decide +kernel
  have hplain : digitUsesSession.Plain 3 := .of_all hroot hsubsets
  have hplain' : digitUsesSession.Plain 0 := .of_all (by decide +kernel) hsubsets
  have hsame : (digitUsesSession.rowType 1).isCompatible (digitUsesSession.rowType 0) = true := by
    decide +kernel
  have houtcome : digitUsesSession.outcome 1 false = digitUsesSession.outcome 0 false := by
    have hrows : digitUsesSession.ranRows 1 = digitUsesSession.ranRows 0 := by decide +kernel
    have hfiltered : (run 1 false).Runs digitUsesSession _ _ := runs_ranRows (by decide +kernel)
    have hdigits : (run 0 false).Runs digitUsesSession _ _ := runs_ranRows (by decide +kernel)
    rw [hrows] at hfiltered
    exact (congrArg Prod.fst hfiltered).trans (congrArg Prod.fst hdigits).symm
  obtain ⟨result, c', hruns, -, hform, hends⟩ :=
    replace_exchanges hroot (by decide +kernel) (by decide +kernel) hplain hplain' (by decide) hsame
  exact ⟨⟨hroot, hplain, hplain', hsame, houtcome⟩, result, c', hruns, hform, hends false houtcome⟩

end

end QueryPlan.Cluster
