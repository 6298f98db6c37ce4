import QueryPlan.Proofs.Outcome
import QueryPlan.Proofs.Session.Congruence
import QueryPlan.Proofs.Session.Digest
/-!
# Nodes of one structure

Nodes that are written alike over inputs of one structure, down to the last input. A digest names inputs
by their numbers, so such nodes have one digest once their inputs are the same nodes.
-/
namespace QueryPlan.Cluster

/-- Operators of one kind with attributes that are written alike, the same traits, and inputs of one
structure. There is no subset among the nodes. -/
inductive SameStructure (c : Cluster) : NodeId → NodeId → Prop
  | node {i j : NodeId} (subset : (c.operator i).isSubset = false) (kind : c.kind i = c.kind j)
      (attributes : (c.operator i).attributes = (c.operator j).attributes)
      (traits : c.traits i = c.traits j)
      (inputs : List.Forall₂ (SameStructure c) (c.inputs i) (c.inputs j)) : SameStructure c i j

/-- Whether two nodes are of one structure, read up to a depth. -/
def looksLike (c : Cluster) : Nat → NodeId → NodeId → Bool
  | 0, _, _ => false
  | depth + 1, i, j =>
    !(c.operator i).isSubset && c.kind i = c.kind j &&
      (c.operator i).attributes = (c.operator j).attributes && c.traits i = c.traits j &&
      (c.inputs i).all₂ (c.looksLike depth) (c.inputs j)

variable {c c' : Cluster} {i j : NodeId}

theorem sameStructure_of_looksLike (depth : Nat) (h : c.looksLike depth i j = true) :
    c.SameStructure i j := by
  induction depth generalizing i j with
  | zero => cases h
  | succ depth ih =>
    simp only [looksLike, Bool.and_eq_true, Bool.not_eq_true', decide_eq_true_eq,
      List.all₂_eq_true] at h
    obtain ⟨⟨⟨⟨hsub, hkind⟩, hattributes⟩, htraits⟩, hinputs⟩ := h
    exact .node hsub hkind hattributes htraits (hinputs.imp fun _ _ => ih)

theorem inputAttributes_congr {o o' : Operator} (h : o.inputCount? = o'.inputCount?)
    (inputs : List NodeId) : c.inputAttributes o inputs = c.inputAttributes o' inputs := by
  rw [inputAttributes_eq_zipWith, inputAttributes_eq_zipWith, inputNames, inputNames, h]

/-- Nodes that are written alike over the same inputs have one digest. -/
theorem digest_congr (hsub : (c.operator i).isSubset = false) (hkind : c.kind i = c.kind j)
    (hattributes : (c.operator i).attributes = (c.operator j).attributes)
    (htraits : c.traits i = c.traits j) (hinputs : c.inputs i = c.inputs j) :
    c.digest i = c.digest j := by
  have hsub' : (c.operator j).isSubset = false := (Operator.isSubset_congr hkind).symm.trans hsub
  have hcount : (c.operator i).inputCount? = (c.operator j).inputCount? := Operator.inputCount?_congr hkind
  rw [digest_eq, digest_eq, hkind, htraits, hinputs, hsub, hsub', hattributes, inputAttributes_congr hcount,
    if_neg Bool.false_ne_true, if_neg Bool.false_ne_true]

theorem SameStructure.mono (hc : c.Extends c') (hi : i < c.size) (hj : j < c.size)
    (h : c.SameStructure i j) : c'.SameStructure i j := by
  -- on the number of the first node: its inputs have smaller numbers
  induction i using Nat.strongRecOn generalizing j with
  | ind i ih =>
    cases h with
    | node hsub hkind hattributes htraits hinputs =>
      refine .node (by rw [hc.operator_eq hi]; exact hsub)
        (by rw [hc.kind_eq hi, hc.kind_eq hj]; exact hkind)
        (by rw [hc.operator_eq hi, hc.operator_eq hj]; exact hattributes)
        (by rw [hc.traits_eq hi, hc.traits_eq hj]; exact htraits) ?_
      rw [hc.inputs_eq hi, hc.inputs_eq hj]
      refine Outcome.forall₂_imp_of_mem (fun k hk l hl hkl => ?_) hinputs
      exact ih k (c.inputs_lt hk) (inputs_lt_size hk) (inputs_lt_size hl) hkl

end QueryPlan.Cluster
