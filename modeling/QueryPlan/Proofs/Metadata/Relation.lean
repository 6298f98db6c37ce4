import QueryPlan.Metadata.Asking
import QueryPlan.Proofs.Expr.Alike
/-!
# Methods under two ways of asking

A method puts the answers of other questions together. So a relation between queries that is kept
when queries are put together carries over from the questions that a method asks to its answer,
whatever is asked in what way. Here are the questions that each method asks, and that law for each.
-/
namespace QueryPlan

/-- What row counts and collations of nodes are made of. -/
inductive Aspect where
  | rowCount
  | collations
  | distinct
  deriving DecidableEq, Repr

/-- A question about an aspect of a node, whatever columns and predicate it is asked for. -/
structure Question where
  aspect : Aspect
  node : NodeId
  deriving DecidableEq, Repr

/-! ## The questions that a method asks -/

/-- The first input of a node, if there is one. -/
def Cluster.firstInput (c : Cluster) (id : NodeId) : List NodeId := (c.input? id 0).toList

def RowCountMethod.asks (c : Cluster) (id : NodeId) : RowCountMethod → List Question
  | tableScan | values | fixed _ => []
  | filter | firstInput | semiJoin | sort => (c.firstInput id).map (⟨.rowCount, ·⟩)
  | unknown | join | correlate | setOperation => (c.inputs id).map (⟨.rowCount, ·⟩)
  | aggregate => (c.inputs id).flatMap fun input => [⟨.rowCount, input⟩, ⟨.distinct, input⟩]
  | subset => (c.node id).members.map (⟨.rowCount, ·⟩)
  | again => [⟨.rowCount, id⟩]

def CollationsMethod.asks (c : Cluster) (id : NodeId) : CollationsMethod → List Question
  | unknown | tableScan | sort | sortExchange | values => []
  | firstInput | project | orderedLeft => (c.firstInput id).map (⟨.collations, ·⟩)
  | mergeJoin => (c.inputs id).map (⟨.collations, ·⟩)
  | subset =>
    match (c.node id).best with
    | some best => [⟨.collations, best⟩]
    | none =>
      if (c.node id).traits.collation.isEmpty then (c.node id).members.map (⟨.collations, ·⟩)
      else []
  | again => [⟨.collations, id⟩]

def DistinctMethod.asks (c : Cluster) (id : NodeId) : DistinctMethod → List Question
  | unknown | values => [⟨.rowCount, id⟩]
  | firstInput | semiJoin => (c.firstInput id).map (⟨.distinct, ·⟩)
  | filter | aggregate | project => ⟨.rowCount, id⟩ :: (c.firstInput id).map (⟨.distinct, ·⟩)
  | join => ⟨.rowCount, id⟩ :: (c.inputs id).map (⟨.distinct, ·⟩)
  | union => (c.inputs id).map (⟨.distinct, ·⟩)
  | subset =>
    match (c.node id).best with
    | some best => [⟨.distinct, best⟩]
    | none => (c.node id).members.map (⟨.distinct, ·⟩)
  | again => [⟨.distinct, id⟩]

/-- The questions that the answer of a question may be made of. -/
def Cluster.asks (c : Cluster) (q : Question) : List Question :=
  match q.aspect with
  | .rowCount => (c.methods.rowCount.methodFor (c.kind q.node)).asks c q.node
  | .collations => (c.methods.collations.methodFor (c.kind q.node)).asks c q.node
  | .distinct => (c.methods.distinct.methodFor (c.kind q.node)).asks c q.node

/-! ## Relations between queries -/

/-- A relation between queries that is kept when queries are put together. -/
structure Querying.Congruence (R : {α : Type} → Querying α → Querying α → Prop) : Prop where
  pure : ∀ {α : Type} (a : α), R (Pure.pure a) (Pure.pure a)
  fault : ∀ {α : Type} (e : PlanError), R (throw (.fault e) : Querying α) (throw (.fault e))
  bind : ∀ {α β : Type} {x y : Querying α} {f g : α → Querying β},
    R x y → (∀ a, R (f a) (g a)) → R (x >>= f) (y >>= g)
  skipCyclic : ∀ {α : Type} {x y : Querying α},
    R x y → R (Querying.skipCyclic x) (Querying.skipCyclic y)

namespace Querying.Congruence

variable {R : {α : Type} → Querying α → Querying α → Prop} (hR : Querying.Congruence R)

include hR

theorem ofOption {α : Type} (o : Option α) : R (Querying.ofOption o) (Querying.ofOption o) := by
  cases o with
  | some a => exact hR.pure a
  | none => exact hR.fault .outOfRange

theorem ofOption_bind {α β : Type} (o : Option α) {f g : α → Querying β}
    (h : ∀ a, o = some a → R (f a) (g a)) :
    R (Querying.ofOption o >>= f) (Querying.ofOption o >>= g) := by
  cases o with
  | some a => exact h a rfl
  | none => exact hR.fault .outOfRange

theorem mapM {α β : Type} {f g : α → Querying β} {as : List α} (h : ∀ a ∈ as, R (f a) (g a)) :
    R (as.mapM f) (as.mapM g) := by
  induction as with
  | nil => exact hR.pure []
  | cons a as ih =>
    rw [List.forall_mem_cons] at h
    rw [List.mapM_cons, List.mapM_cons]
    exact hR.bind h.1 fun b => hR.bind (ih h.2) fun bs => hR.pure (b :: bs)

end Querying.Congruence

/-- Two ways of asking are related at some questions. Numbers of distinct rows are so for all
columns and for predicates that are alike. -/
structure Asking.Related (R : {α : Type} → Querying α → Querying α → Prop) (Q : Question → Prop)
    (ask ask' : Asking) : Prop where
  rowCount : ∀ j, Q ⟨.rowCount, j⟩ → R (ask.rowCount j) (ask'.rowCount j)
  collations : ∀ j, Q ⟨.collations, j⟩ → R (ask.collations j) (ask'.collations j)
  distinct : ∀ j columns p p', Q ⟨.distinct, j⟩ → Option.Rel Expr.Alike p p' →
    R (ask.distinct j columns p) (ask'.distinct j columns p')

theorem Cluster.mem_firstInput {c : Cluster} {id j : NodeId} (h : c.input? id 0 = some j) :
    j ∈ c.firstInput id := by
  rw [Cluster.firstInput, h]
  exact List.mem_singleton_self j

theorem Cluster.mem_inputs_of_input? {c : Cluster} {id j : NodeId} {i : Nat}
    (h : c.input? id i = some j) : j ∈ c.inputs id := List.mem_of_getElem? h

section

variable {R : {α : Type} → Querying α → Querying α → Prop} (hR : Querying.Congruence R)
  {c : Cluster} {ask ask' : Asking} {id : NodeId}

include hR

namespace RowCountMethod

theorem related_ofInput (h : ∀ j ∈ c.inputs id, R (ask.rowCount j) (ask'.rowCount j)) :
    R (ofInput c ask id) (ofInput c ask' id) := by
  unfold ofInput
  split
  · next input hinputs => exact h input (by simp [hinputs])
  · exact hR.pure 1.0

theorem related_leastOf {members : List NodeId} (best : Option Float)
    (h : ∀ j ∈ members, R (ask.rowCount j) (ask'.rowCount j)) :
    R (leastOf ask best members) (leastOf ask' best members) := by
  induction members generalizing best with
  | nil => exact hR.pure best
  | cons member members ih =>
    rw [List.forall_mem_cons] at h
    refine hR.bind (hR.skipCyclic h.1) fun rows? => ?_
    cases rows? with
    | some rows => exact ih _ h.2
    | none => exact ih _ h.2

theorem related_answer (m : RowCountMethod)
    (h : Asking.Related R (· ∈ m.asks c id) ask ask') :
    R (m.answer c ask id) (m.answer c ask' id) := by
  cases m with
  | unknown =>
    exact related_ofInput hR fun j hj => h.rowCount j (List.mem_map_of_mem hj)
  | tableScan => exact hR.pure _
  | filter =>
    exact hR.ofOption_bind _ fun j hj =>
      hR.bind (h.rowCount j (List.mem_map_of_mem (Cluster.mem_firstInput hj))) fun rows => hR.pure _
  | firstInput =>
    exact hR.ofOption_bind _ fun j hj =>
      h.rowCount j (List.mem_map_of_mem (Cluster.mem_firstInput hj))
  | join =>
    have hinput : ∀ i j, c.input? id i = some j → R (ask.rowCount j) (ask'.rowCount j) :=
      fun i j hj => h.rowCount j (List.mem_map_of_mem (Cluster.mem_inputs_of_input? hj))
    unfold answer
    dsimp only
    split
    · exact hR.ofOption_bind _ fun j hj => hR.bind (hinput 0 j hj) fun left =>
        hR.ofOption_bind _ fun k hk => hR.bind (hinput 1 k hk) fun right => hR.pure _
    · exact related_ofInput hR fun j hj => h.rowCount j (List.mem_map_of_mem hj)
  | semiJoin =>
    exact hR.ofOption_bind _ fun j hj =>
      hR.bind (h.rowCount j (List.mem_map_of_mem (Cluster.mem_firstInput hj))) fun rows => hR.pure _
  | correlate =>
    have hinput : ∀ i j, c.input? id i = some j → R (ask.rowCount j) (ask'.rowCount j) :=
      fun i j hj => h.rowCount j (List.mem_map_of_mem (Cluster.mem_inputs_of_input? hj))
    refine hR.ofOption_bind _ fun j hj => hR.bind (hinput 0 j hj) fun left => ?_
    split
    · split
      · exact hR.ofOption_bind _ fun k hk => hR.bind (hinput 1 k hk) fun right => hR.pure _
      · exact hR.pure _
    · exact hR.pure _
  | aggregate =>
    have hasked : ∀ j ∈ c.inputs id, ⟨.rowCount, j⟩ ∈ asks c id .aggregate ∧
        ⟨.distinct, j⟩ ∈ asks c id .aggregate := fun j hj =>
      ⟨List.mem_flatMap.mpr ⟨j, hj, by simp⟩, List.mem_flatMap.mpr ⟨j, hj, by simp⟩⟩
    unfold answer
    dsimp only
    split
    · split
      · exact hR.pure _
      · refine hR.ofOption_bind _ fun j hj => ?_
        have hj := hasked j (Cluster.mem_inputs_of_input? hj)
        refine hR.bind (h.distinct j _ _ _ hj.2 .none) fun distinct? => ?_
        cases distinct? with
        | some distinct => exact hR.pure _
        | none => exact hR.bind (h.rowCount j hj.1) fun rows => hR.pure _
    · exact related_ofInput hR fun j hj => h.rowCount j (hasked j hj).1
  | sort =>
    refine hR.ofOption_bind _ fun j hj =>
      hR.bind (h.rowCount j (List.mem_map_of_mem (Cluster.mem_firstInput hj))) fun rows => ?_
    split
    · exact hR.pure _
    · exact hR.pure _
  | setOperation =>
    exact hR.bind (hR.mapM fun j hj => h.rowCount j (List.mem_map_of_mem hj)) fun _ => hR.pure _
  | values =>
    unfold answer
    dsimp only
    split
    · exact hR.pure _
    · exact hR.pure _
  | subset =>
    exact hR.bind (related_leastOf hR none fun j hj => h.rowCount j (List.mem_map_of_mem hj))
      fun best => hR.pure _
  | again => exact h.rowCount id List.mem_cons_self
  | fixed rows => exact hR.pure rows

end RowCountMethod

namespace CollationsMethod

theorem related_sharedBy {members : List NodeId} (shared : Option (List Collation))
    (h : ∀ j ∈ members, R (ask.collations j) (ask'.collations j)) :
    R (sharedBy ask shared members) (sharedBy ask' shared members) := by
  induction members generalizing shared with
  | nil => exact hR.pure _
  | cons member members ih =>
    rw [List.forall_mem_cons] at h
    refine hR.bind (hR.skipCyclic h.1) fun collations? => ?_
    cases collations? with
    | some collations => exact ih _ h.2
    | none => exact ih _ h.2

theorem related_ofMergeJoin (condition : Expr)
    (h : ∀ j ∈ c.inputs id, R (ask.collations j) (ask'.collations j)) :
    R (ofMergeJoin c ask id condition) (ofMergeJoin c ask' id condition) := by
  refine hR.ofOption_bind _ fun left hleft => hR.ofOption_bind _ fun right hright =>
    hR.ofOption_bind _ fun info _ => ?_
  refine hR.bind (h left (Cluster.mem_inputs_of_input? hleft)) fun lefts => ?_
  split
  · exact hR.fault _
  refine hR.bind (h right (Cluster.mem_inputs_of_input? hright)) fun rights => ?_
  split
  · exact hR.fault _
  · exact hR.pure _

theorem related_answer (m : CollationsMethod)
    (h : Asking.Related R (· ∈ m.asks c id) ask ask') :
    R (m.answer c ask id) (m.answer c ask' id) := by
  have hfirst : ∀ j, c.input? id 0 = some j →
      m.asks c id = (c.firstInput id).map (⟨.collations, ·⟩) →
      R (ask.collations j) (ask'.collations j) := fun j hj hasks =>
    h.collations j (hasks ▸ List.mem_map_of_mem (Cluster.mem_firstInput hj))
  cases m with
  | unknown => exact hR.pure _
  | tableScan => exact hR.pure _
  | firstInput => exact hR.ofOption_bind _ fun j hj => hfirst j hj rfl
  | sort =>
    unfold answer
    dsimp only
    split
    · exact hR.pure _
    · exact hR.pure _
  | sortExchange =>
    unfold answer
    dsimp only
    split
    · exact hR.pure _
    · exact hR.pure _
  | project =>
    unfold answer
    dsimp only
    split
    · exact hR.ofOption_bind _ fun j hj => hR.bind (hfirst j hj rfl) fun _ => hR.ofOption _
    · exact hR.pure _
  | values =>
    unfold answer
    dsimp only
    split
    · exact hR.ofOption _
    · exact hR.pure _
  | mergeJoin =>
    unfold answer
    dsimp only
    split
    · exact related_ofMergeJoin hR _ fun j hj => h.collations j (List.mem_map_of_mem hj)
    · exact hR.pure _
  | orderedLeft =>
    exact hR.ofOption_bind _ fun j hj => hR.bind (hfirst j hj rfl) fun _ => hR.pure _
  | subset =>
    unfold answer
    unfold asks at h
    dsimp only at h ⊢
    split
    · next best hbest =>
      rw [hbest] at h
      exact h.collations best List.mem_cons_self
    · next hbest =>
      rw [hbest] at h
      split
      · next hempty =>
        rw [if_pos hempty] at h
        exact related_sharedBy hR none fun j hj => h.collations j (List.mem_map_of_mem hj)
      · exact hR.pure _
  | again => exact h.collations id List.mem_cons_self

end CollationsMethod

/-! ## Numbers of distinct rows -/

section

variable {p p' : Option Expr} (hp : Option.Rel Expr.Alike p p')

include hp

omit hR in
theorem Estimate.selectivity_eq : Estimate.selectivity p = Estimate.selectivity p' := by
  cases hp with
  | none => rfl
  | some hp => exact hp.selectivity

omit hR in
theorem Estimate.isTrivial_eq (columns : ColumnSet) :
    Estimate.isTrivial columns p = Estimate.isTrivial columns p' := by
  cases hp with
  | none => rfl
  | some hp =>
    unfold Estimate.isTrivial
    rw [Option.map_some, Option.map_some, hp.isAlwaysTrue]

omit hR in
theorem Estimate.alike_splitAtJoin (leftCount rightCount : Nat) :
    Option.Rel Expr.Alike (splitAtJoin leftCount rightCount p).1
        (splitAtJoin leftCount rightCount p').1 ∧
      Option.Rel Expr.Alike (splitAtJoin leftCount rightCount p).2.1
        (splitAtJoin leftCount rightCount p').2.1 ∧
      Option.Rel Expr.Alike (splitAtJoin leftCount rightCount p).2.2
        (splitAtJoin leftCount rightCount p').2.2 := by
  have hleft := Expr.alike_splitBy (ColumnSet.range 0 leftCount) hp
  have hright := Expr.alike_splitBy (ColumnSet.range leftCount (leftCount + rightCount))
    (Expr.alike_conjunction? hleft.2)
  refine ⟨Expr.alike_conjunction? hleft.1, ?_, Expr.alike_conjunction? hright.2⟩
  exact Expr.alike_map (fun e e' he => he.mapColumns _) (Expr.alike_conjunction? hright.1)

end

namespace DistinctMethod

variable {columns : ColumnSet} {p p' : Option Expr}

theorem related_unlessTrivial {x y : Querying (Option Float)} (hp : Option.Rel Expr.Alike p p')
    (h : R x y) : R (unlessTrivial columns p x) (unlessTrivial columns p' y) := by
  unfold unlessTrivial
  rw [Estimate.isTrivial_eq hp]
  split
  · exact hR.pure _
  · exact h

theorem related_ofKey (hp : Option.Rel Expr.Alike p p')
    (h : R (ask.rowCount id) (ask'.rowCount id)) :
    R (ofKey c ask id columns p) (ofKey c ask' id columns p') := by
  unfold ofKey
  rw [Estimate.selectivity_eq hp]
  split
  · exact hR.bind h fun rows => hR.pure _
  · exact hR.pure none

/-- An optional predicate that is changed if there is one, and may turn out to have no change. -/
theorem related_changed {β : Type} {change : Expr → Option Expr}
    (hchange : ∀ e e', Expr.Alike e e' → Option.Rel Expr.Alike (change e) (change e'))
    (hp : Option.Rel Expr.Alike p p') {f g : Option Expr → Querying β}
    (h : ∀ q q', Option.Rel Expr.Alike q q' → R (f q) (g q')) :
    R ((p.mapM fun e => Querying.ofOption (change e)) >>= f)
      ((p'.mapM fun e => Querying.ofOption (change e)) >>= g) := by
  cases hp with
  | none => exact h none none .none
  | @some e e' he =>
    have hchanged := hchange e e' he
    simp only [Option.mapM_some, map_eq_pure_bind, bind_assoc, pure_bind]
    generalize change e = k at hchanged ⊢
    generalize change e' = k' at hchanged ⊢
    cases hchanged with
    | none => exact hR.fault .outOfRange
    | some hk => exact h _ _ (.some hk)

omit hR in
theorem cardinalities_eq (c : Cluster) (ask : Asking) (id : NodeId) (es : List Expr) :
    Estimate.cardinalities c ask id es = es.map (Estimate.cardinality c ask id) := by
  induction es with
  | nil => rfl
  | cons e es ih => rw [Estimate.cardinalities, ih, List.map_cons]

theorem related_operand {β : Type} {xs ys : List (Querying (Option Float))}
    (h : List.Forall₂ (fun x y => R x y) xs ys) (i : Nat)
    {f g : Querying (Option Float) → Querying β} (hfg : ∀ x y, R x y → R (f x) (g y)) :
    R (Querying.ofOption xs[i]? >>= f) (Querying.ofOption ys[i]? >>= g) := by
  induction h generalizing i with
  | nil => exact hR.fault .outOfRange
  | cons hxy _ ih =>
    cases i with
    | zero => exact hfg _ _ hxy
    | succ i => exact ih i

theorem related_callCardinality (op : Op) (rows : Float)
    {xs ys : List (Querying (Option Float))} (h : List.Forall₂ (fun x y => R x y) xs ys) :
    R (Estimate.callCardinality op rows xs) (Estimate.callCardinality op rows ys) := by
  unfold Estimate.callCardinality
  split
  · exact related_operand hR h 0 fun x y hxy => hxy
  iterate 4
    · refine related_operand hR h 0 fun x y hxy => hR.bind hxy fun left? => ?_
      refine related_operand hR h 1 fun x' y' hxy' => hR.bind hxy' fun right? => ?_
      split
      · split
        · exact hR.pure _
        · exact hR.pure _
      · exact hR.pure _
  · cases h with
    | nil => exact hR.pure _
    | cons hxy hrest =>
      cases hrest with
      | nil => exact hxy
      | cons _ _ => exact hR.pure _

theorem related_cardinality (h : Asking.Related R (· ∈ asks c id .project) ask ask') (e : Expr) :
    R (Estimate.cardinality c ask id e) (Estimate.cardinality c ask' id e) := by
  have hrows : R (ask.rowCount id) (ask'.rowCount id) := h.rowCount id List.mem_cons_self
  induction e using Expr.induct with
  | column i t =>
    rw [Estimate.cardinality, Estimate.cardinality]
    refine hR.ofOption_bind _ fun input hinput => hR.bind hrows fun _ => ?_
    exact h.distinct input _ _ _
      (List.mem_cons_of_mem _ (List.mem_map_of_mem (Cluster.mem_firstInput hinput))) .none
  | literal v =>
    rw [Estimate.cardinality, Estimate.cardinality]
    exact hR.ofOption_bind _ fun _ _ => hR.bind hrows fun _ => hR.pure _
  | apply op es t ih =>
    rw [Estimate.cardinality, Estimate.cardinality, cardinalities_eq, cardinalities_eq]
    refine hR.ofOption_bind _ fun _ _ => hR.bind hrows fun rows => hR.bind ?_ fun _ => hR.pure _
    exact related_callCardinality hR op rows (Outcome.forall₂_map_same.mpr ih)
  | tableColumn r i t =>
    rw [Estimate.cardinality, Estimate.cardinality]
    exact hR.ofOption_bind _ fun _ _ => hR.bind hrows fun _ => hR.pure _

theorem related_timesComputed (h : Asking.Related R (· ∈ asks c id .project) ask ask')
    (exprs : List Expr) (number : Float) (computed : List Nat) :
    R (timesComputed c ask id exprs number computed)
      (timesComputed c ask' id exprs number computed) := by
  induction computed generalizing number with
  | nil => exact hR.pure _
  | cons column computed ih =>
    refine hR.ofOption_bind _ fun e _ => hR.bind (related_cardinality hR h e) fun factor? => ?_
    cases factor? with
    | some factor => exact ih _
    | none => exact hR.pure none

theorem related_ofFilter (hp : Option.Rel Expr.Alike p p')
    (h : Asking.Related R (· ∈ asks c id .filter) ask ask') :
    R (ofFilter c ask id columns p) (ofFilter c ask' id columns p') := by
  unfold ofFilter
  split
  · exact related_ofKey hR hp (h.rowCount id List.mem_cons_self)
  · next condition _ =>
    refine hR.ofOption_bind _ fun input hinput => h.distinct input _ _ _
      (List.mem_cons_of_mem _ (List.mem_map_of_mem (Cluster.mem_firstInput hinput))) (.some ?_)
    cases hp with
    | none => exact Expr.alike_self condition
    | some hp =>
      exact Expr.alike_call_and (.cons hp (.cons (Expr.alike_self condition) .nil))

theorem related_ofJoin (hp : Option.Rel Expr.Alike p p')
    (h : Asking.Related R (· ∈ asks c id .join) ask ask') :
    R (ofJoin c ask id columns p) (ofJoin c ask' id columns p') := by
  have hasked : ∀ i j, c.input? id i = some j → ⟨.distinct, j⟩ ∈ asks c id .join := fun i j hj =>
    List.mem_cons_of_mem _ (List.mem_map_of_mem (Cluster.mem_inputs_of_input? hj))
  refine hR.ofOption_bind _ fun left hleft => hR.ofOption_bind _ fun right hright => ?_
  obtain ⟨honLeft, honRight, honBoth⟩ :=
    Estimate.alike_splitAtJoin hp (c.arity left) (c.arity right)
  dsimp only
  generalize Estimate.splitAtJoin (c.arity left) (c.arity right) p = parts at *
  generalize Estimate.splitAtJoin (c.arity left) (c.arity right) p' = parts' at *
  obtain ⟨onLeft, onRight, onBoth⟩ := parts
  obtain ⟨onLeft', onRight', onBoth'⟩ := parts'
  dsimp only at honLeft honRight honBoth ⊢
  refine hR.bind (h.distinct left _ _ _ (hasked 0 left hleft) honLeft) fun lefts => ?_
  refine hR.bind (h.distinct right _ _ _ (hasked 1 right hright) honRight) fun rights => ?_
  rw [Estimate.selectivity_eq honBoth]
  split
  · exact hR.bind (h.rowCount id List.mem_cons_self) fun rows => hR.pure _
  · exact hR.pure none

omit hR in
theorem reducedBy_eq {rest rest' : List Expr} (h : List.Forall₂ Expr.Alike rest rest')
    (number : Float) : Estimate.reducedBy rest number = Estimate.reducedBy rest' number := by
  unfold Estimate.reducedBy
  rw [Estimate.selectivity_eq (Expr.alike_conjunction? h)]
  cases h <;> rfl

theorem related_ofAggregate (hp : Option.Rel Expr.Alike p p')
    (h : Asking.Related R (· ∈ asks c id .aggregate) ask ask') :
    R (ofAggregate c ask id columns p) (ofAggregate c ask' id columns p') := by
  unfold ofAggregate
  split
  · exact related_ofKey hR hp (h.rowCount id List.mem_cons_self)
  · next group calls _ =>
    obtain ⟨honGroup, hrest⟩ := Expr.alike_splitBy (ColumnSet.range 0 group.size) hp
    generalize Expr.splitBy (ColumnSet.range 0 group.size) p = parts at *
    generalize Expr.splitBy (ColumnSet.range 0 group.size) p' = parts' at *
    obtain ⟨onGroup, rest⟩ := parts
    obtain ⟨onGroup', rest'⟩ := parts'
    dsimp only at honGroup hrest ⊢
    rw [show Estimate.reducedBy rest = Estimate.reducedBy rest' from funext (reducedBy_eq hrest)]
    refine hR.ofOption_bind _ fun input hinput => hR.bind (h.distinct input _ _ _
      (List.mem_cons_of_mem _ (List.mem_map_of_mem (Cluster.mem_firstInput hinput)))
      (Expr.alike_bind (fun e e' he => he.mapColumns? _) (Expr.alike_conjunction? honGroup)))
      fun number => hR.pure _

theorem related_ofProjection (hp : Option.Rel Expr.Alike p p')
    (h : Asking.Related R (· ∈ asks c id .project) ask ask') :
    R (ofProjection c ask id columns p) (ofProjection c ask' id columns p') := by
  unfold ofProjection
  split
  · exact related_ofKey hR hp (h.rowCount id List.mem_cons_self)
  · next projected _ =>
    obtain ⟨honOutput, hrest⟩ :=
      Expr.alike_splitBy (ColumnSet.range 0 (projected.map Prod.fst).length) hp
    dsimp only
    generalize Expr.splitBy (ColumnSet.range 0 (projected.map Prod.fst).length) p = parts at *
    generalize Expr.splitBy (ColumnSet.range 0 (projected.map Prod.fst).length) p' = parts' at *
    obtain ⟨onOutput, rest⟩ := parts
    obtain ⟨onOutput', rest'⟩ := parts'
    dsimp only at honOutput hrest ⊢
    rw [show Estimate.reducedBy rest = Estimate.reducedBy rest' from funext (reducedBy_eq hrest)]
    refine related_changed hR (fun e e' he => he.mapColumns? _)
      (Expr.alike_conjunction? honOutput) fun q q' hq => ?_
    refine hR.ofOption_bind _ fun input hinput => hR.bind (h.distinct input _ _ _
      (List.mem_cons_of_mem _ (List.mem_map_of_mem (Cluster.mem_firstInput hinput))) hq) fun number? => ?_
    cases number? with
    | none => exact hR.pure none
    | some number =>
      dsimp only
      split
      · exact hR.pure _
      · refine hR.bind (related_timesComputed hR h _ _ _) fun product? => ?_
        cases product? with
        | some product => exact hR.bind (h.rowCount id List.mem_cons_self) fun _ => hR.pure _
        | none => exact hR.pure none

theorem related_sumOf (hp : Option.Rel Expr.Alike p p') {inputs : List NodeId} (sum : Float)
    (h : ∀ j ∈ inputs, ∀ q q', Option.Rel Expr.Alike q q' →
      R (ask.distinct j columns q) (ask'.distinct j columns q')) :
    R (sumOf c ask columns p sum inputs) (sumOf c ask' columns p' sum inputs) := by
  induction inputs generalizing sum with
  | nil => exact hR.pure _
  | cons input inputs ih =>
    rw [List.forall_mem_cons] at h
    refine related_changed hR (fun e e' he => he.mapColumns? _) hp fun q q' hq => ?_
    refine hR.bind (h.1 q q' hq) fun number? => ?_
    cases number? with
    | some number => exact ih _ h.2
    | none => exact hR.pure none

theorem related_leastOf {members : List NodeId} (least : Option Float)
    (h : ∀ j ∈ members, R (ask.distinct j columns p) (ask'.distinct j columns p')) :
    R (leastOf ask columns p least members) (leastOf ask' columns p' least members) := by
  induction members generalizing least with
  | nil => exact hR.pure _
  | cons member members ih =>
    rw [List.forall_mem_cons] at h
    refine hR.bind (hR.skipCyclic h.1) fun number?? => ?_
    rcases number?? with _ | _ | number
    · exact ih _ h.2
    · exact ih _ h.2
    · exact ih _ h.2

theorem related_answer (m : DistinctMethod) (hp : Option.Rel Expr.Alike p p')
    (h : Asking.Related R (· ∈ m.asks c id) ask ask') :
    R (m.answer c ask id columns p) (m.answer c ask' id columns p') := by
  cases m with
  | unknown => exact related_ofKey hR hp (h.rowCount id List.mem_cons_self)
  | filter => exact related_unlessTrivial hR hp (related_ofFilter hR hp h)
  | firstInput =>
    exact hR.ofOption_bind _ fun j hj =>
      h.distinct j _ _ _ (List.mem_map_of_mem (Cluster.mem_firstInput hj)) hp
  | join => exact related_unlessTrivial hR hp (related_ofJoin hR hp h)
  | semiJoin =>
    exact related_unlessTrivial hR hp <| hR.ofOption_bind _ fun j hj =>
      hR.bind (h.distinct j _ _ _ (List.mem_map_of_mem (Cluster.mem_firstInput hj)) hp)
        fun _ => hR.pure _
  | aggregate => exact related_unlessTrivial hR hp (related_ofAggregate hR hp h)
  | project => exact related_unlessTrivial hR hp (related_ofProjection hR hp h)
  | union =>
    exact related_sumOf hR hp 0.0 fun j hj q q' hq =>
      h.distinct j columns q q' (List.mem_map_of_mem hj) hq
  | values =>
    refine related_unlessTrivial hR hp <| hR.bind (h.rowCount id List.mem_cons_self) fun rows => ?_
    rw [Estimate.selectivity_eq hp]
    exact hR.pure _
  | subset =>
    unfold answer
    unfold asks at h
    dsimp only at h ⊢
    split
    · next best hbest =>
      rw [hbest] at h
      exact h.distinct best _ _ _ List.mem_cons_self hp
    · next hbest =>
      rw [hbest] at h
      exact related_leastOf hR none fun j hj =>
        h.distinct j _ _ _ (List.mem_map_of_mem hj) hp
  | again => exact h.distinct id _ _ _ List.mem_cons_self hp

end DistinctMethod

end

end QueryPlan
