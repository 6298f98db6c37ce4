import QueryPlan.Proofs.Metadata.Relation
import QueryPlan.Proofs.Session.Extension
import Mathlib.Logic.Relation
import Mathlib.Data.Set.Card
/-!
# Questions that do not need their own answer

A question is settled if no question that needs its own answer is met on the way from it. From a
settled question every way of questions ends, so that its answer is the same for every bound that is
long enough.
-/
namespace QueryPlan

open Relation

namespace Cluster

variable {c : Cluster} {q q' : Question}

/-- The answer of the first question may be made of that of the second. -/
def Needs (c : Cluster) (q q' : Question) : Prop := q' ∈ c.asks q

/-- No question that needs its own answer is met on the way from this one. -/
def Settled (c : Cluster) (q : Question) : Prop :=
  ∀ q', ReflTransGen c.Needs q q' → ¬TransGen c.Needs q' q'

theorem Settled.of_needs (h : c.Settled q) (hq : c.Needs q q') : c.Settled q' :=
  fun r hr => h r (.head hq hr)

theorem Settled.not_needs_self (h : c.Settled q) : ¬TransGen c.Needs q q := h q .refl

theorem mem_inputs_of_mem_firstInput {id j : NodeId} (h : j ∈ c.firstInput id) :
    j ∈ c.inputs id := by
  rw [firstInput, Option.mem_toList] at h
  exact mem_inputs_of_input? h

/-- A node itself, its inputs and its members. -/
def around (c : Cluster) (id : NodeId) : List NodeId := id :: (c.inputs id ++ (c.node id).members)

theorem around_lt {id j : NodeId} (h : j ∈ c.around id) : j = id ∨ j < c.size := by
  rcases List.mem_cons.mp h with rfl | h
  · exact .inl rfl
  · rcases List.mem_append.mp h with h | h
    · exact .inr (inputs_lt_size h)
    · exact .inr (members_lt_size h)

theorem around_of_asked {id : NodeId} {nodes : List NodeId} {aspect : Aspect}
    (hnodes : ∀ j ∈ nodes, j ∈ c.around id) (h : q ∈ nodes.map (Question.mk aspect)) :
    q.node ∈ c.around id := by
  obtain ⟨j, hj, rfl⟩ := List.mem_map.mp h
  exact hnodes j hj

theorem around_of_firstInput {id j : NodeId} (h : j ∈ c.firstInput id) : j ∈ c.around id :=
  List.mem_cons_of_mem _ (List.mem_append_left _ (mem_inputs_of_mem_firstInput h))

theorem around_of_inputs {id j : NodeId} (h : j ∈ c.inputs id) : j ∈ c.around id :=
  List.mem_cons_of_mem _ (List.mem_append_left _ h)

theorem around_of_members {id j : NodeId} (h : j ∈ (c.node id).members) : j ∈ c.around id :=
  List.mem_cons_of_mem _ (List.mem_append_right _ h)

theorem around_of_rowCount {m : RowCountMethod} {id : NodeId} (h : q ∈ m.asks c id) :
    q.node ∈ c.around id := by
  cases m with
  | filter | firstInput | semiJoin | sort =>
    exact around_of_asked (fun _ => around_of_firstInput) h
  | unknown | join | correlate | setOperation =>
    exact around_of_asked (fun _ => around_of_inputs) h
  | aggregate =>
    obtain ⟨j, hj, h⟩ := List.mem_flatMap.mp h
    rcases List.mem_pair.mp h with rfl | rfl
    · exact around_of_inputs hj
    · exact around_of_inputs hj
  | subset => exact around_of_asked (fun _ => around_of_members) h
  | again =>
    rw [List.mem_singleton.mp h]
    exact List.mem_cons_self
  | tableScan | values | fixed _ => cases h

theorem around_of_collations {m : CollationsMethod} {id : NodeId} (h : q ∈ m.asks c id) :
    q.node ∈ c.around id := by
  cases m with
  | firstInput | project | orderedLeft => exact around_of_asked (fun _ => around_of_firstInput) h
  | mergeJoin => exact around_of_asked (fun _ => around_of_inputs) h
  | subset =>
    unfold CollationsMethod.asks at h
    dsimp only at h
    split at h
    · next best hbest =>
      rw [List.mem_singleton.mp h]
      exact around_of_members (best_mem_members hbest)
    · split at h
      · exact around_of_asked (fun _ => around_of_members) h
      · cases h
  | again =>
    rw [List.mem_singleton.mp h]
    exact List.mem_cons_self
  | unknown | tableScan | sort | sortExchange | values => cases h

theorem around_of_distinct {m : DistinctMethod} {id : NodeId} (h : q ∈ m.asks c id) :
    q.node ∈ c.around id := by
  cases m with
  | unknown | values | again =>
    rw [List.mem_singleton.mp h]
    exact List.mem_cons_self
  | firstInput | semiJoin => exact around_of_asked (fun _ => around_of_firstInput) h
  | filter | aggregate | project =>
    rcases List.mem_cons.mp h with rfl | h
    · exact List.mem_cons_self
    · exact around_of_asked (fun _ => around_of_firstInput) h
  | join =>
    rcases List.mem_cons.mp h with rfl | h
    · exact List.mem_cons_self
    · exact around_of_asked (fun _ => around_of_inputs) h
  | union => exact around_of_asked (fun _ => around_of_inputs) h
  | subset =>
    unfold DistinctMethod.asks at h
    dsimp only at h
    split at h
    · next best hbest =>
      rw [List.mem_singleton.mp h]
      exact around_of_members (best_mem_members hbest)
    · exact around_of_asked (fun _ => around_of_members) h

theorem Needs.around (h : c.Needs q q') : q'.node ∈ c.around q.node := by
  obtain ⟨aspect, id⟩ := q
  cases aspect with
  | rowCount => exact around_of_rowCount h
  | collations => exact around_of_collations h
  | distinct => exact around_of_distinct h

theorem node_of_needs (h : TransGen c.Needs q q') : q'.node = q.node ∨ q'.node < c.size := by
  induction h with
  | single h => exact around_lt h.around
  | tail _ h ih =>
    rcases around_lt h.around with heq | hlt
    · exact heq ▸ ih
    · exact .inr hlt

/-! ## The number of questions ahead -/

/-- The questions that are met on the way from a question. -/
def ahead (c : Cluster) (q : Question) : Set Question := {q' | TransGen c.Needs q q'}

/-- The number of questions that are met on the way from a question. -/
noncomputable def rank (c : Cluster) (q : Question) : Nat := (c.ahead q).ncard

/-- Questions about a node or about one of the session. -/
def questionsFrom (c : Cluster) (id : NodeId) : Finset Question :=
  ((insert id (Finset.range c.size)) ×ˢ {Aspect.rowCount, Aspect.collations, Aspect.distinct}).image
    fun p => ⟨p.2, p.1⟩

theorem ahead_subset (c : Cluster) (q : Question) : c.ahead q ⊆ c.questionsFrom q.node := by
  rintro ⟨aspect, id⟩ h
  have hnode := node_of_needs h
  refine Finset.mem_coe.mpr (Finset.mem_image.mpr ⟨(id, aspect), Finset.mem_product.mpr ⟨?_, ?_⟩, rfl⟩)
  · exact Finset.mem_insert.mpr (hnode.imp_right Finset.mem_range.mpr)
  · cases aspect <;> simp

theorem finite_ahead (c : Cluster) (q : Question) : (c.ahead q).Finite :=
  (c.questionsFrom q.node).finite_toSet.subset (c.ahead_subset q)

/-- The number of questions inside one another stays below the bound that answers are found with. -/
theorem rank_lt_bound (c : Cluster) (q : Question) : c.rank q < 64 * (c.size + 1) := by
  have hle : c.rank q ≤ (c.questionsFrom q.node).card := by
    rw [rank, ← Set.ncard_coe_finset]
    exact Set.ncard_le_ncard (c.ahead_subset q) (c.questionsFrom q.node).finite_toSet
  have hcard : (c.questionsFrom q.node).card ≤ (c.size + 1) * 3 := by
    refine Finset.card_image_le.trans ?_
    rw [Finset.card_product]
    refine Nat.mul_le_mul ?_ (by decide)
    exact (Finset.card_insert_le _ _).trans_eq (by rw [Finset.card_range])
  omega

/-- Each question on the way from a settled one has fewer questions ahead. -/
theorem Settled.rank_lt (h : c.Settled q) (hq : c.Needs q q') : c.rank q' < c.rank q := by
  refine Set.ncard_lt_ncard ⟨fun r hr => .head hq hr, fun hsub => ?_⟩ (c.finite_ahead q)
  exact (h.of_needs hq).not_needs_self (hsub (TransGen.single hq))

end Cluster

end QueryPlan
