import QueryPlan.Proofs.Execution.Stripping
import QueryPlan.Proofs.Operator.Typing
/-!
# Executable plans

Subsets stand for their chosen members, so a plan with subsets is a graph in which subsets may lead
forward. It can be executed if nothing in it is an empty subset and nothing leads back to itself.
That is what stripping finds out, in one walk that marks the subsets under way only: between two of
them numbers get smaller.
-/
namespace QueryPlan.Cluster

open Relation Stripping

/-! ## Column types -/

section

variable {c : Cluster} {is js : List NodeId}

/-- Two nodes have the same column types. -/
def SameTypes (c : Cluster) (i j : NodeId) : Prop := (c.rowType i).isCompatible (c.rowType j) = true

theorem map_types_of_sameTypes (h : List.Forall₂ c.SameTypes is js) :
    (is.map c.rowType).map RowType.types = (js.map c.rowType).map RowType.types := by
  induction h with
  | nil => rfl
  | cons hhead _ ih =>
    simp only [List.map_cons, ih, RowType.isCompatible_iff.mp hhead]

theorem sameTypes_congruence (c : Cluster) : c.Congruence c.SameTypes where
  refl _ := RowType.isCompatible_iff.mpr rfl
  trans hij hjk :=
    RowType.isCompatible_iff.mpr
      ((RowType.isCompatible_iff.mp hij).trans (RowType.isCompatible_iff.mp hjk))
  node {i j} hi hj hop _ hinputs := by
    rw [SameTypes, RowType.isCompatible_iff, rowType_eq hi, rowType_eq hj, hop]
    exact Operator.types_congr _ (map_types_of_sameTypes hinputs)

end

/-! ## What stands for each node -/

namespace Stripping

/-- What is on record for a node; the node itself if there is nothing. -/
def form (s : Stripping) (id : NodeId) : NodeId := (s.done.lookup id).getD id

variable {s : Stripping} {c c' : Cluster} {root plan i j r : NodeId}

theorem lookup_eq_of_mem {done : List (NodeId × NodeId)} (hnodup : (done.map Prod.fst).Nodup)
    (h : (i, r) ∈ done) : done.lookup i = some r := by
  obtain ⟨before, after, rfl⟩ := List.append_of_mem h
  rw [List.map_append, List.map_cons] at hnodup
  have hdistinct := (List.nodup_append.mp hnodup).2.2
  exact List.lookup_eq_some_iff.mpr ⟨before, after, rfl, fun p hp =>
    bne_iff_ne.mpr (hdistinct p.1 (List.mem_map_of_mem hp) i List.mem_cons_self).symm⟩

theorem Sound.form_eq (hs : s.Sound c c') (h : (i, r) ∈ s.done) : s.form i = r := by
  rw [form, lookup_eq_of_mem hs.nodup h, Option.getD_some]

theorem Sound.mem_form (hs : s.Sound c c') (h : (i, r) ∈ s.done) : (i, s.form i) ∈ s.done := by
  rw [hs.form_eq h]
  exact h

/-- What a node on record leads to is on record. -/
theorem Sound.mem_of_leads (hs : s.Sound c c') (h : (i, s.form i) ∈ s.done) (hj : c.Leads i j) :
    (j, s.form j) ∈ s.done := by
  cases hj with
  | input hj =>
    -- a subset has no inputs
    have hplain : (c.operator i).isSubset = false := by
      by_contra hsub
      rw [inputs_eq_nil_of_isSubset (Bool.of_not_eq_false hsub)] at hj
      cases hj
    obtain ⟨-, -, hinputs, -⟩ := hs.copied h hplain
    obtain ⟨k, -, hjk⟩ := Outcome.exists_right_of_forall₂ hinputs hj
    exact hs.mem_form hjk
  | member hsub hchosen => exact hs.mem_form (hs.mem_chosen h hsub hchosen)

/-- Once the root is on record, so is everything that is reached from it. -/
theorem Sound.mem_of_reaches (hs : s.Sound c c') (hfound : (root, plan) ∈ s.done)
    (h : ReflTransGen c.Leads root i) : (i, s.form i) ∈ s.done := by
  induction h with
  | refl => exact hs.mem_form hfound
  | tail _ hlast ih => exact hs.mem_of_leads ih hlast

theorem Sound.map_form (hs : s.Sound c c') {is js : List NodeId}
    (h : List.Forall₂ (fun j k => (j, k) ∈ s.done) is js) : js = is.map s.form := by
  induction h with
  | nil => rfl
  | cons hhead _ ih => rw [List.map_cons, hs.form_eq hhead, ih]

end Stripping

/-- What stripping leaves of the plan under a root, where `form` says what stands for each node that
is reached. A subset is replaced by what stands for its chosen member, and every other node by
itself over what stands for its inputs. New nodes are copies of different nodes, one each. -/
structure Stripped (c : Cluster) (root : NodeId) (c' : Cluster) (plan : NodeId)
    (form : NodeId → NodeId) : Prop where
  grown : c.Extends c'
  plain : c'.Plain plan
  compatible : (c'.rowType plan).isCompatible (c.rowType root) = true
  root_eq : form root = plan
  member : ∀ i m, ReflTransGen c.Leads root i → (c.operator i).isSubset = true →
    (c.node i).chosenMember? = some m → form i = form m
  node : ∀ i, ReflTransGen c.Leads root i → (c.operator i).isSubset = false →
    c'.operator (form i) = c.operator i ∧ c'.traits (form i) = c.traits i ∧
      c'.inputs (form i) = (c.inputs i).map form
  kept : ∀ i, ReflTransGen c.Leads root i → (c.operator i).isSubset = false →
    (c.inputs i).map form = c.inputs i → form i = i
  once : ∀ n, c.size ≤ n → n < c'.size →
    ∃! i, (ReflTransGen c.Leads root i ∧ (c.operator i).isSubset = false) ∧ form i = n

section

variable {c c' : Cluster} {root plan : NodeId} {s : Stripping}

theorem stripped_of_sound (hs : s.Sound c c') (hfound : (root, plan) ∈ s.done)
    (hreached : ∀ p ∈ s.done, ReflTransGen c.Leads root p.1) : Stripped c root c' plan s.form where
  grown := hs.grown
  plain := hs.plain hfound
  compatible := by
    have hroot := (hs.lt_size _ hfound).1
    -- types agree at each subset with its member, so along all that stands for the root
    have hsame : c'.SameTypes root plan := by
      refine hs.related (sameTypes_congruence c') (fun i m hi hsub hchosen => ?_) hfound
      rw [← hs.grown.node_eq hi] at hchosen
      exact isCompatible_of_mem_members (chosenMember?_mem hchosen)
    rw [SameTypes, hs.grown.rowType_eq hroot, RowType.isCompatible_iff] at hsame
    exact RowType.isCompatible_iff.mpr hsame.symm
  root_eq := hs.form_eq hfound
  member i m hi hsub hchosen :=
    (hs.form_eq (hs.mem_chosen (hs.mem_of_reaches hfound hi) hsub hchosen)).symm
  node i hi hplain :=
    have hcopied := hs.copied (hs.mem_of_reaches hfound hi) hplain
    ⟨hcopied.1, hcopied.2.1, hs.map_form hcopied.2.2.1⟩
  kept i hi hplain heq :=
    have hcopied := hs.copied (hs.mem_of_reaches hfound hi) hplain
    hcopied.2.2.2 ((hs.map_form hcopied.2.2.1).trans heq)
  once n hn hlt := by
    obtain ⟨i, ⟨hplain, hi⟩, hunique⟩ := hs.fresh n hn hlt
    refine ⟨i, ⟨⟨hreached _ hi, hplain⟩, hs.form_eq hi⟩, ?_⟩
    rintro j ⟨⟨hj, hplain'⟩, rfl⟩
    exact hunique j ⟨hplain', hs.mem_of_reaches hfound hj⟩

/-- Stripping decides which plans are executable. It ends, with a plan without subsets if the root
is executable, and else with the error of a subset that stands in the way. -/
theorem stripSubsets_decides (hroot : root < c.size) :
    ((∃ plan c', (stripSubsets root).Runs c plan c') ↔ c.Executable root) ∧
      (stripSubsets root).FailsWith c (c.StuckBy root) ∧
      ∀ plan c', (stripSubsets root).Runs c plan c' → ∃ form, Stripped c root c' plan form := by
  refine ⟨⟨?_, stripSubsets_succeeds hroot⟩, stripSubsets_fails hroot, ?_⟩
  · rintro ⟨plan, c', h⟩
    obtain ⟨s, hs, hfound, -⟩ := stripSubsets_sound hroot h
    exact (hs.strippable _ hfound).executable
  · intro plan c' h
    obtain ⟨s, hs, hfound, hreached⟩ := stripSubsets_sound hroot h
    exact ⟨s.form, stripped_of_sound hs hfound hreached⟩

end

/-! ## A plan that can be executed, and one that cannot -/

/-- Two digits. -/
def twoDigits : Operator := .values .none ⟨[⟨"digit", .bigint, false⟩]⟩ [[.integer 1], [.integer 2]]

/-- A subset of which a filter over it is the first member and the digits the best one, in a subset
of its own, and a union of that with the filter, twice. Beside them a subset with a filter over
itself as its only member. -/
def digitPlans : Planning NodeId := do
  let rowType := twoDigits.rowType []
  let digits ← createDefault twoDigits []
  let choice ← createSubset rowType default
  let filtered ← createDefault (.filter .none (.bool true)) [choice]
  addMember choice filtered
  addMember choice digits
  setBest choice digits
  let outer ← createSubset rowType default
  addMember outer choice
  let circle ← createSubset rowType default
  let around ← createDefault (.filter .none (.bool true)) [circle]
  addMember circle around
  createDefault (.union .none true) [outer, filtered, filtered]

def digitSession : Cluster := (digitPlans.run.run (Cluster.start ⟨[]⟩ default default)).2

theorem stripSubsets_decides_digits :
    (6 < digitSession.size ∧ digitSession.Executable 6 ∧
      ∃ form, Stripped digitSession 6 ((stripSubsets 6).leaves digitSession) 8 form) ∧
    4 < digitSession.size ∧ ¬digitSession.Executable 4 := by
  have hsix : 6 < digitSession.size := by decide +kernel
  have hfour : 4 < digitSession.size := by decide +kernel
  have hruns : (stripSubsets 6).Runs digitSession 8 ((stripSubsets 6).leaves digitSession) :=
    Planning.runs_leaves (by decide +kernel)
  have hfails : ((stripSubsets 4).run.run digitSession).1.toOption = none := by decide +kernel
  obtain ⟨hdecides, -, hstripped⟩ := stripSubsets_decides hsix
  refine ⟨⟨hsix, hdecides.mp ⟨_, _, hruns⟩, hstripped _ _ hruns⟩, hfour, fun hexecutable => ?_⟩
  obtain ⟨plan, c', h⟩ := (stripSubsets_decides hfour).1.mpr hexecutable
  rw [show (stripSubsets 4).run.run digitSession = _ from h] at hfails
  cases hfails

end QueryPlan.Cluster
