import QueryPlan.Proofs.Expr.Conjunction
import QueryPlan.Proofs.Planner.Iteration
import QueryPlan.Proofs.Rule.Joined
import QueryPlan.Proofs.Rule.Offers
import QueryPlan.Proofs.Session.Replacement
/-!
# Rules make plans lighter

Projections move up over operators of one sort: over filters when a plan is normalized, over joins when it
is brought into leaf join form. A projection burdens a plan by itself, and once more for each of these
operators above it. A conjunct of a filter is pending once for each join below it. Every rule lowers the
burden of a plan without a new projection, or it keeps burden, projections and joins and leaves fewer
conjuncts pending.

Plans are weighed as trees: a shared node counts once for each of its uses.
-/
namespace QueryPlan

/-- The operators that projections are moved over. -/
inductive Crossing where
  | filters
  | joins
  deriving DecidableEq, Repr

/-- How far a plan is from what the rules make of it. -/
@[ext] structure Weight where
  projections : Nat
  burden : Nat
  joins : Nat
  pending : Nat
  deriving DecidableEq, Repr

namespace Weight

instance : Zero Weight := ⟨⟨0, 0, 0, 0⟩⟩

instance : Add Weight := ⟨fun w v =>
  ⟨w.projections + v.projections, w.burden + v.burden, w.joins + v.joins, w.pending + v.pending⟩⟩

/-- The weight of a plan, from its operator and the weight of what is below it. -/
def ofOperator (crossing : Crossing) (o : Operator) (below : Weight) : Weight :=
  match o with
  | .project _ _ => { below with projections := below.projections + 1, burden := below.burden + 1 }
  | .filter _ condition =>
    { below with
      burden := below.burden + if crossing = .filters then below.projections else 0
      pending := below.pending + condition.conjuncts.length * below.joins }
  | .join _ _ _ =>
    { below with
      burden := below.burden + if crossing = .joins then below.projections else 0
      joins := below.joins + 1 }
  | _ => below

/-- A lower burden without a new projection, or else fewer pending conjuncts. -/
def Lighter (w v : Weight) : Prop :=
  w.projections ≤ v.projections ∧ w.burden < v.burden ∨
    w.projections = v.projections ∧ w.burden = v.burden ∧ w.joins = v.joins ∧ w.pending < v.pending

def AtMost (w v : Weight) : Prop := w = v ∨ w.Lighter v

/-- Plans cannot get lighter for ever. -/
theorem lighter_wf : WellFounded Lighter := by
  refine Subrelation.wf ?_ (InvImage.wf (fun w : Weight => (w.burden, w.pending))
    (Prod.lex ⟨_, Nat.lt_wfRel.wf⟩ ⟨_, Nat.lt_wfRel.wf⟩).wf)
  rintro w v (⟨-, hburden⟩ | ⟨-, hburden, -, hpending⟩)
  · exact Prod.Lex.left _ _ hburden
  · show Prod.Lex _ _ (w.burden, w.pending) (v.burden, v.pending)
    rw [hburden]
    exact Prod.Lex.right _ hpending

theorem not_lighter_self (w : Weight) : ¬w.Lighter w := by
  unfold Lighter
  omega

variable {crossing : Crossing} {o : Operator} {w v w' v' : Weight}

theorem projections_add : (w + v).projections = w.projections + v.projections := rfl

theorem burden_add : (w + v).burden = w.burden + v.burden := rfl

theorem joins_add : (w + v).joins = w.joins + v.joins := rfl

theorem pending_add : (w + v).pending = w.pending + v.pending := rfl

/-- What is lighter stays so under every operator. -/
theorem Lighter.ofOperator (h : w.Lighter v) :
    (ofOperator crossing o w).Lighter (ofOperator crossing o v) := by
  cases o with
  | project _ _ =>
    unfold Lighter Weight.ofOperator at *
    dsimp only
    omega
  | filter _ condition =>
    rcases h with ⟨hprojections, hburden⟩ | ⟨hprojections, hburden, hjoins, hpending⟩
    · refine .inl ⟨hprojections, ?_⟩
      unfold Weight.ofOperator
      dsimp only
      split <;> omega
    · refine .inr ⟨hprojections, ?_, hjoins, ?_⟩
      · unfold Weight.ofOperator
        dsimp only
        rw [hprojections, hburden]
      · unfold Weight.ofOperator
        dsimp only
        rw [hjoins]
        exact Nat.add_lt_add_right hpending _
  | join _ _ _ =>
    unfold Lighter Weight.ofOperator at *
    dsimp only
    split <;> omega
  | _ => exact h

theorem AtMost.ofOperator (h : w.AtMost v) :
    (ofOperator crossing o w).AtMost (ofOperator crossing o v) :=
  h.imp (congrArg _) Lighter.ofOperator

theorem Lighter.add_atMost (h : w.Lighter v) (h' : w'.AtMost v') : (w + w').Lighter (v + v') := by
  rcases h' with rfl | h'
  · unfold Lighter at *
    simp only [projections_add, burden_add, joins_add, pending_add]
    omega
  · unfold Lighter at *
    simp only [projections_add, burden_add, joins_add, pending_add]
    omega

theorem AtMost.add_lighter (h : w.AtMost v) (h' : w'.Lighter v') : (w + w').Lighter (v + v') := by
  rcases h with rfl | h
  · unfold Lighter at *
    simp only [projections_add, burden_add, joins_add, pending_add]
    omega
  · exact h.add_atMost (.inr h')

theorem AtMost.add (h : w.AtMost v) (h' : w'.AtMost v') : (w + w').AtMost (v + v') := by
  rcases h with rfl | h
  · rcases h' with rfl | h'
    · exact .inl rfl
    · exact .inr (AtMost.add_lighter (.inl rfl) h')
  · exact .inr (h.add_atMost h')

/-- Lists that are lighter at one place, and heavier nowhere, are lighter together. -/
theorem sum_atMost {weight : NodeId → Weight} {P : NodeId → Prop} {is js : List NodeId}
    (h : List.Forall₂ (fun i j => (weight j).AtMost (weight i) ∧ (P i → (weight j).Lighter (weight i)))
      is js) :
    (js.map weight).sum.AtMost (is.map weight).sum ∧
      ((∃ i ∈ is, P i) → (js.map weight).sum.Lighter (is.map weight).sum) := by
  induction h with
  | nil => exact ⟨.inl rfl, by simp⟩
  | cons hhead _ ih =>
    simp only [List.map_cons, List.sum_cons, List.exists_mem_cons_iff]
    refine ⟨hhead.1.add ih.1, ?_⟩
    rintro (hi | his)
    · exact (hhead.2 hi).add_atMost ih.1
    · exact hhead.1.add_lighter (ih.2 his)

end Weight

namespace Cluster

/-- The weight of the plan under a node. -/
def weight (crossing : Crossing) (c : Cluster) (id : NodeId) : Weight :=
  .ofOperator crossing (c.operator id)
    ((c.inputsBelow id).map fun ⟨input, _⟩ => c.weight crossing input).sum
termination_by id

/-- The second of two nodes is lighter. -/
def Lightens (crossing : Crossing) (c : Cluster) (i j : NodeId) : Prop :=
  (c.weight crossing j).Lighter (c.weight crossing i)

variable {crossing : Crossing} {c c' : Cluster} {id i j : NodeId}

theorem weight_eq (crossing : Crossing) (c : Cluster) (id : NodeId) :
    c.weight crossing id =
      .ofOperator crossing (c.operator id) ((c.inputs id).map (c.weight crossing)).sum := by
  rw [weight, ← inputsBelow_map_val, List.map_map]
  rfl

theorem Extends.weight_eq (hc : c.Extends c') (hid : id < c.size) :
    c'.weight crossing id = c.weight crossing id := by
  induction id using Nat.strongRecOn with
  | ind id ih =>
    rw [Cluster.weight_eq, Cluster.weight_eq, hc.operator_eq hid, hc.inputs_eq hid]
    congr 2
    exact List.map_congr_left fun j hj => ih j (c.inputs_lt hj) (inputs_lt_size hj)

theorem IsNode.weight_one {o : Operator} (h : c.IsNode id o [i]) :
    c.weight crossing id = .ofOperator crossing o (c.weight crossing i) := by
  rw [Cluster.weight_eq, h.operator_eq, h.inputs_eq]
  rfl

theorem IsNode.weight_two {o : Operator} (h : c.IsNode id o [i, j]) :
    c.weight crossing id = .ofOperator crossing o (c.weight crossing i + c.weight crossing j) := by
  rw [Cluster.weight_eq, h.operator_eq, h.inputs_eq]
  rfl

/-- Having one weight is a congruence. -/
theorem sameWeight_congruence (crossing : Crossing) (c : Cluster) :
    c.Congruence fun i j => c.weight crossing j = c.weight crossing i where
  refl _ := rfl
  trans hij hjk := hjk.trans hij
  node {i j} _ _ hop _ hin := by
    have hweights : List.Forall₂ Eq ((c.inputs i).map (c.weight crossing))
        ((c.inputs j).map (c.weight crossing)) :=
      List.forall₂_map_left_iff.mpr (List.forall₂_map_right_iff.mpr (hin.imp fun _ _ h => h.symm))
    rw [List.forall₂_eq_eq_eq] at hweights
    rw [Cluster.weight_eq, Cluster.weight_eq crossing c i, hop, hweights]

/-- Where lighter nodes replace some nodes no plan gets heavier, and a plan with one of them gets
lighter. -/
theorem Replaced.atMost {hit : NodeId → Prop} {other : NodeId} (h : c.Replaced hit other i j)
    (hlight : ∀ k, hit k → c.Lightens crossing k other) :
    (c.weight crossing j).AtMost (c.weight crossing i) ∧
      ((∃ k, c.InPlan i k ∧ hit k) → c.Lightens crossing i j) := by
  -- on the number of the node: its inputs have smaller numbers
  induction i using Nat.strongRecOn generalizing j with
  | ind i ih =>
    cases h with
    | here hhit => exact ⟨.inr (hlight i hhit), fun _ => hlight i hhit⟩
    | above hnot operator _ inputs _ =>
      have hinputs : List.Forall₂ (fun k l => (c.weight crossing l).AtMost (c.weight crossing k) ∧
          ((∃ m, c.InPlan k m ∧ hit m) → (c.weight crossing l).Lighter (c.weight crossing k)))
          (c.inputs i) (c.inputs j) :=
        Outcome.forall₂_imp_of_mem (fun k hk l _ hkl => ih k (c.inputs_lt hk) hkl) inputs
      obtain ⟨hatMost, hlighter⟩ := Weight.sum_atMost hinputs
      rw [Lightens, Cluster.weight_eq crossing c j, Cluster.weight_eq crossing c i, operator]
      refine ⟨hatMost.ofOperator, ?_⟩
      rintro ⟨m, hplan, hhit⟩
      rcases hplan.eq_or_input with rfl | ⟨k, hk, hm⟩
      · exact absurd hhit hnot
      · exact (hlighter ⟨k, hk, m, hm, hhit⟩).ofOperator

/-! ## Rules with one input at each node -/

variable {offered : NodeId}

theorem lightens_belowProjection {v v' v'' : Convention} {condition condition' : Expr}
    {columns : List (Expr × String)} {project input filter : NodeId}
    (hid : c.IsNode id (.filter v condition) [project])
    (hproject : c.IsNode project (.project v' columns) [input])
    (hfilter : c.IsNode filter (.filter v'' condition') [input])
    (hoffered : c.IsNode offered (.project v' columns) [filter]) :
    c.Lightens .filters id offered := by
  unfold Lightens
  rw [hid.weight_one, hproject.weight_one, hoffered.weight_one, hfilter.weight_one]
  simp only [Weight.ofOperator, Weight.Lighter, if_true]
  omega

theorem lightens_projectionMerge {v v' v'' : Convention} {upper lower merged : List (Expr × String)}
    {bottom input : NodeId} (hid : c.IsNode id (.project v upper) [bottom])
    (hbottom : c.IsNode bottom (.project v' lower) [input])
    (hoffered : c.IsNode offered (.project v'' merged) [input]) : c.Lightens crossing id offered := by
  unfold Lightens
  rw [hid.weight_one, hbottom.weight_one, hoffered.weight_one]
  simp only [Weight.ofOperator, Weight.Lighter]
  omega

theorem lightens_removeIdentity {v : Convention} {columns : List (Expr × String)}
    (hid : c.IsNode id (.project v columns) [offered]) : c.Lightens crossing id offered := by
  unfold Lightens
  rw [hid.weight_one]
  simp only [Weight.ofOperator, Weight.Lighter]
  omega

/-! ## A filter over a join -/

/-- A filter on conjuncts makes each of them pending once for every join below it. -/
theorem weight_kept {input kept : NodeId} {conjuncts : List Expr} (h : Rule.Kept c input conjuncts kept)
    (hparts : ∀ e ∈ conjuncts, e.conjuncts = [e]) :
    (c.weight .joins kept).projections = (c.weight .joins input).projections ∧
      (c.weight .joins kept).burden = (c.weight .joins input).burden ∧
      (c.weight .joins kept).joins = (c.weight .joins input).joins ∧
      (c.weight .joins kept).pending ≤
        (c.weight .joins input).pending + conjuncts.length * (c.weight .joins input).joins := by
  rcases h.cases with ⟨-, rfl⟩ | ⟨e, hconj, hnode⟩
  · exact ⟨rfl, rfl, rfl, Nat.le_add_right _ _⟩
  · rw [IsNode.weight_one hnode]
    refine ⟨rfl, rfl, rfl, Nat.add_le_add_left (Nat.mul_le_mul_right _ ?_) _⟩
    exact Expr.length_conjuncts_conjunction? hparts hconj

/-- Every conjunct goes to one place. -/
theorem length_placed (joinType : JoinType) (leftCount : Nat) (condition : Expr) :
    (Rule.placed joinType leftCount condition .left).length +
      (Rule.placed joinType leftCount condition .right).length +
      (Rule.placed joinType leftCount condition .condition).length +
      (Rule.placed joinType leftCount condition .above).length = condition.conjuncts.length := by
  unfold Rule.placed
  induction condition.conjuncts with
  | nil => rfl
  | cons e es ih =>
    cases h : Filter.place joinType leftCount e <;>
      simp only [List.filter_cons, h, reduceCtorEq, decide_true, decide_false, if_true, if_false,
        Bool.false_eq_true, List.length_cons] <;> omega

/-- Distributing a filter over a join leaves fewer conjuncts pending: those that stay above the join are
pending as before, and the other ones no longer for the join itself. -/
theorem pending_lt {left right condition : Nat} (above leftJoins rightJoins : Nat)
    (h : 0 < left + right + condition) :
    left * leftJoins + right * rightJoins + above * (leftJoins + rightJoins + 1) <
      (left + right + condition + above) * (leftJoins + rightJoins + 1) := by
  have hleft : left * leftJoins ≤ (left + right + condition) * leftJoins :=
    Nat.mul_le_mul_right _ (by omega)
  have hright : right * rightJoins ≤ (left + right + condition) * rightJoins :=
    Nat.mul_le_mul_right _ (by omega)
  generalize left + right + condition = moved at *
  rw [Nat.add_mul moved, Nat.mul_add moved, Nat.mul_add moved, Nat.mul_one]
  omega

theorem lightens_intoJoin {v : Convention} {condition joinCondition : Expr} {joinType : JoinType}
    {joined left right left' right' join : NodeId} {m : Nat}
    (hid : c.IsNode id (.filter v condition) [joined])
    (hjoined : c.IsNode joined (.join .logical joinType joinCondition) [left, right])
    (hleft : Rule.Kept c left (Rule.placed joinType m condition .left) left')
    (hright : Rule.Kept c right ((Rule.placed joinType m condition .right).map (·.shift (-(m : Int))))
      right')
    (hjoin : c.IsNode join (.join .logical joinType (Expr.conjunction
      (joinCondition :: Rule.placed joinType m condition .condition))) [left', right'])
    (hoffered : Rule.Kept c join (Rule.placed joinType m condition .above) offered)
    (hmoves : ¬(condition.conjuncts.all fun e => Filter.place joinType m e = .above) = true) :
    c.Lightens .joins id offered := by
  have hparts : ∀ p, ∀ e ∈ Rule.placed joinType m condition p, e.conjuncts = [e] := fun p e he =>
    Expr.conjuncts_of_mem_conjuncts (mem_placed.mp he).1
  have hshifted : ∀ e ∈ (Rule.placed joinType m condition .right).map (·.shift (-(m : Int))),
      e.conjuncts = [e] := by
    refine List.forall_mem_map.mpr fun e he => ?_
    rw [Expr.shift, Expr.conjuncts_mapColumns, hparts _ e he]
    rfl
  obtain ⟨hpl, hbl, hjl, hfl⟩ := weight_kept hleft (hparts _)
  obtain ⟨hpr, hbr, hjr, hfr⟩ := weight_kept hright hshifted
  obtain ⟨hpo, hbo, hjo, hfo⟩ := weight_kept hoffered (hparts _)
  rw [List.length_map] at hfr
  have hcount := length_placed joinType m condition
  have habove : (Rule.placed joinType m condition .above).length < condition.conjuncts.length := by
    refine Nat.lt_of_le_of_ne (List.length_filter_le _ _) fun heq => hmoves ?_
    rw [List.all_eq_true]
    exact fun e he => List.length_filter_eq_length_iff.mp heq e he
  unfold Lightens
  rw [hid.weight_one, hjoined.weight_two]
  rw [IsNode.weight_two hjoin] at hpo hbo hjo hfo
  simp only [Weight.ofOperator, Weight.Lighter, Weight.projections_add, Weight.burden_add,
    Weight.joins_add, Weight.pending_add, if_true, reduceCtorEq, if_false] at hpo hbo hjo hfo ⊢
  rw [hjl, hjr] at hfo
  have hlt := pending_lt (Rule.placed joinType m condition .above).length
    (c.weight .joins left).joins (c.weight .joins right).joins
    (by omega : 0 < (Rule.placed joinType m condition .left).length +
      (Rule.placed joinType m condition .right).length +
      (Rule.placed joinType m condition .condition).length)
  rw [hcount] at hlt
  omega

/-! ## Projections under a join -/

/-- Pulling a projection from an input takes its weight off. -/
theorem weight_pulled (crossing : Crossing) {input below : NodeId} {pads : Bool} {offset : Nat} {exprs : List Expr}
    (h : Rule.Pulled c input pads offset below exprs) :
    (c.weight crossing below).projections ≤ (c.weight crossing input).projections ∧
      (c.weight crossing below).burden ≤ (c.weight crossing input).burden := by
  cases h with
  | kept => exact ⟨Nat.le_refl _, Nat.le_refl _⟩
  | pulled _ hnode =>
    rw [hnode.weight_one]
    exact ⟨Nat.le_succ _, Nat.le_succ _⟩

theorem weight_project (crossing : Crossing) {v : Convention} {columns : List (Expr × String)} {input : NodeId}
    (h : c.IsNode id (.project v columns) [input]) :
    (c.weight crossing id).projections = (c.weight crossing input).projections + 1 ∧
      (c.weight crossing id).burden = (c.weight crossing input).burden + 1 := by
  rw [h.weight_one]
  exact ⟨rfl, rfl⟩

theorem lightens_aboveJoin {joinType : JoinType} {condition condition' : Expr}
    {left right newLeft newRight join : NodeId} {leftExprs rightExprs : List Expr} {offset : Nat}
    {columns : List (Expr × String)} (hid : c.IsNode id (.join .logical joinType condition) [left, right])
    (hleft : Rule.Pulled c left joinType.padsLeft 0 newLeft leftExprs)
    (hright : Rule.Pulled c right joinType.padsRight offset newRight rightExprs)
    (hjoin : c.IsNode join (.join .logical joinType condition') [newLeft, newRight])
    (hoffered : c.IsNode offered (.project .none columns) [join])
    (hpulled : (∃ v columns, c.IsNode left (.project v columns) [newLeft]) ∨
      ∃ v columns, c.IsNode right (.project v columns) [newRight]) : c.Lightens .joins id offered := by
  have hweightLeft := weight_pulled .joins hleft
  have hweightRight := weight_pulled .joins hright
  unfold Lightens
  rw [hid.weight_two, hoffered.weight_one, hjoin.weight_two]
  simp only [Weight.ofOperator, Weight.Lighter, Weight.projections_add, Weight.burden_add, if_true]
  rcases hpulled with ⟨v, below, hproject⟩ | ⟨v, below, hproject⟩
  · have hweight := weight_project .joins hproject
    omega
  · have hweight := weight_project .joins hproject
    omega

end Cluster

namespace Planner

open Cluster

variable {C : Cluster}

/-- Every rule for normalizing offers lighter nodes. -/
theorem offersLighter_normalize :
    ∀ rule ∈ Rule.normalize, OffersRelated (C.Lightens .filters) C rule := by
  intro rule hrule id offered c c' hid _ haccepts h hC
  obtain ⟨hlt, h⟩ := rule.offered_of_runs hid haccepts h hC
  refine ⟨hlt, ?_⟩
  cases h with
  | filterProjectTranspose hnode hproject _ hfilter hoffered =>
    exact lightens_belowProjection hnode hproject hfilter hoffered
  | projectMerge hnode hbottom _ hoffered => exact lightens_projectionMerge hnode hbottom hoffered
  | projectRemove hnode _ => exact lightens_removeIdentity hnode
  | _ => simp [Rule.normalize] at hrule

/-- Every rule for the leaf join form offers lighter nodes. -/
theorem offersLighter_leafJoin : ∀ rule ∈ Rule.leafJoin, OffersRelated (C.Lightens .joins) C rule := by
  intro rule hrule id offered c c' hid _ haccepts h hC
  obtain ⟨hlt, h⟩ := rule.offered_of_runs hid haccepts h hC
  refine ⟨hlt, ?_⟩
  cases h with
  | projectMerge hnode hbottom _ hoffered => exact lightens_projectionMerge hnode hbottom hoffered
  | projectRemove hnode _ => exact lightens_removeIdentity hnode
  | filterIntoJoin hnode hjoined hleft hright hjoin hoffered hmoves =>
    exact lightens_intoJoin hnode hjoined hleft hright hjoin hoffered hmoves
  | joinProjectTranspose hnode hleft hright _ hjoin _ hoffered hpulled =>
    exact lightens_aboveJoin hnode hleft hright hjoin hoffered hpulled
  | _ => simp [Rule.leafJoin] at hrule

end Planner

end QueryPlan
