import QueryPlan.Proofs.Execution.Proper
import QueryPlan.Proofs.Matching
import QueryPlan.View.Unify
/-!
# Rows of a node from the rows of a target

If a node can be computed from a target without an aggregate, then conjuncts that are left over and
expressions over the target's outputs give exactly the node's rows, in order, and they have values on
all rows that they see: on those the node itself evaluated what they stand for.
-/
namespace QueryPlan

open OutcomeRow Execution

namespace Unification

/-! ## Leftover conjuncts -/

/-- Where the conjuncts come from that turn the rows of a target into those of a node. -/
inductive Residual (c : Cluster) (id target : NodeId) : List Expr → Prop
  | same (eq : id = target) : Residual c id target []
  | above {v : Convention} {condition : Expr} (node : c.IsNode id (.filter v condition) [target]) :
      Residual c id target condition.conjuncts
  | beside {v v' : Convention} {condition targetCondition : Expr} {input : NodeId}
      (node : c.IsNode id (.filter v condition) [input])
      (targetNode : c.IsNode target (.filter v' targetCondition) [input])
      (among : ∀ k ∈ targetCondition.conjuncts, condition.conjuncts.contains k = true) :
      Residual c id target
        (condition.conjuncts.filter (!targetCondition.conjuncts.contains ·))

variable {c C : Cluster} {id target : NodeId} {ps : List Expr}

theorem residual_of_residual? (hid : id < c.size) (htarget : target < c.size)
    (h : residual? c id target = some ps) : Residual c id target ps := by
  unfold residual? at h
  split at h
  · next heq =>
    cases h
    exact .same heq
  · simp only [Option.bind_eq_bind, Option.bind_eq_some_iff] at h
    obtain ⟨condition, hcondition, input, hinput, h⟩ := h
    obtain ⟨v, hop⟩ := Operator.filterCondition?_eq_some hcondition
    have hnode := Cluster.isNode_one hid hop rfl hinput
    split at h
    · next heq =>
      cases h
      exact .above (heq ▸ hnode)
    · obtain ⟨targetCondition, htargetCondition, h⟩ := Option.bind_eq_some_iff.mp h
      split at h
      · next hall =>
        cases h
        obtain ⟨v', hop'⟩ := Operator.filterCondition?_eq_some htargetCondition
        have htargetNode := Cluster.isNode_one htarget hop' rfl hall.1
        exact .beside hnode htargetNode (List.all_eq_true.mp hall.2)
      · cases h

theorem Residual.mono (h : Residual c id target ps) (hC : c.Extends C) : Residual C id target ps := by
  cases h with
  | same heq => exact .same heq
  | above hnode => exact .above (hnode.mono hC)
  | beside hnode htarget hamong => exact .beside (hnode.mono hC) (htarget.mono hC) hamong

theorem Residual.arity_eq (h : Residual c id target ps) : c.arity id = c.arity target := by
  cases h with
  | same heq => rw [heq]
  | above hnode => exact hnode.arity_filter
  | beside hnode htarget => rw [hnode.arity_filter, htarget.arity_filter]

/-- Filtering by conjuncts that have values on all rows. -/
structure Filters (lacks : DataType) (ps : List Expr) (rows kept : List Row) : Prop where
  decided : ∀ row ∈ rows, Expr.DecidedOn (ofRow row) ps
  literals : ∀ p ∈ ps, p.Lacks lacks
  rows_eq : kept = rows.filter fun row => ps.all (·.holdsOn (ofRow row))

theorem contains_iff {lacks : DataType} (hlacks : Value.SeparatesNumbers lacks) {e : Expr}
    (hps : ∀ p ∈ ps, p.Lacks lacks) (he : e.Lacks lacks) : ps.contains e = true → e ∈ ps := by
  intro h
  obtain ⟨p, hp, heq⟩ := List.any_eq_true.mp (List.any_beq.trans h)
  rw [Expr.eq_of_beq hlacks he (hps p hp) heq]
  exact hp

/-- The leftover conjuncts filter the rows of the target to those of the node. -/
theorem Residual.filters {lacks : DataType} (hlacks : Value.SeparatesNumbers lacks)
    (h : Residual c id target ps) (hid : c.Proper lacks id) (htarget : c.Proper lacks target) :
    Filters lacks ps (c.ranRows target) (c.ranRows id) := by
  cases h with
  | same heq =>
    subst heq
    refine ⟨fun row _ => ⟨by simp, .boolean true, rfl⟩, by simp, ?_⟩
    exact (List.filter_eq_self.mpr fun _ _ => rfl).symm
  | @above v condition hnode =>
    obtain ⟨-, hcondition, hliterals, hrows⟩ := hid.of_filter hnode
    refine ⟨fun row hrow => ?_, fun p hp => Expr.lacks_of_mem_conjuncts hliterals hp, ?_⟩
    · obtain ⟨hpredicate, hvalue⟩ := hcondition row hrow
      exact Expr.decidedOn_conjuncts hpredicate (by rw [evalOn_ofRow]; exact hvalue)
    · rw [hrows]
      exact List.filter_congr fun row hrow => (Expr.all_holdsOn_conjuncts (hcondition row hrow).1).symm
  | @beside v v' condition targetCondition input hnode htargetNode hamong =>
    obtain ⟨-, hcondition, hliterals, hrows⟩ := hid.of_filter hnode
    obtain ⟨-, htargetCondition, htargetLiterals, htargetRows⟩ := htarget.of_filter htargetNode
    have hconjuncts : ∀ k ∈ condition.conjuncts, k.Lacks lacks := fun k hk =>
      Expr.lacks_of_mem_conjuncts hliterals hk
    have htargetConjuncts : ∀ k ∈ targetCondition.conjuncts, k.Lacks lacks := fun k hk =>
      Expr.lacks_of_mem_conjuncts htargetLiterals hk
    -- a conjunct that is left out is one of the target's, all of which hold where its condition does
    have hholds : ∀ row ∈ c.ranRows input, targetCondition.holdsOn (ofRow row) = true →
        ∀ k ∈ condition.conjuncts, (!targetCondition.conjuncts.contains k) = false →
          k.holdsOn (ofRow row) = true := by
      intro row hrow htrue k hk hleft
      rw [← Expr.all_holdsOn_conjuncts (htargetCondition row hrow).1, List.all_eq_true] at htrue
      rw [Bool.not_eq_false'] at hleft
      exact htrue k (contains_iff hlacks htargetConjuncts (hconjuncts k hk) hleft)
    refine ⟨fun row hrow => ?_, fun p hp => hconjuncts p (List.mem_of_mem_filter hp), ?_⟩
    · rw [htargetRows, List.mem_filter] at hrow
      obtain ⟨hpredicate, hvalue⟩ := hcondition row hrow.1
      have hdecided := Expr.decidedOn_conjuncts hpredicate (by rw [evalOn_ofRow]; exact hvalue)
      exact hdecided.filter (hholds row hrow.1 hrow.2)
    · rw [hrows, htargetRows, List.filter_filter]
      refine List.filter_congr fun row hrow => ?_
      rw [← Expr.all_holdsOn_conjuncts (hcondition row hrow).1, Bool.eq_iff_iff, Bool.and_eq_true,
        List.all_eq_true, List.all_eq_true]
      constructor
      · intro hall
        refine ⟨fun k hk => hall k (List.mem_of_mem_filter hk), ?_⟩
        rw [← Expr.all_holdsOn_conjuncts (htargetCondition row hrow).1, List.all_eq_true]
        exact fun k hk => hall k (contains_iff hlacks hconjuncts (htargetConjuncts k hk) (hamong k hk))
      · rintro ⟨hkept, htrue⟩ k hk
        by_cases hcontains : targetCondition.conjuncts.contains k = true
        · exact hholds row hrow htrue k hk (by rw [hcontains]; rfl)
        · exact hkept k (List.mem_filter.mpr ⟨hk, by simpa using hcontains⟩)

/-- A filter on leftover conjuncts over rows of the target is proper, with the rows of the node. -/
theorem Filters.proper_kept {lacks : DataType} (hlacks : Value.SeparatesNumbers lacks)
    {input kept : NodeId} {rows : List Row} (h : Filters lacks ps (c.ranRows input) rows)
    (hinput : c.Proper lacks input) (hkept : Rule.Kept c input ps kept) :
    c.Proper lacks kept ∧ c.ranRows kept = rows := by
  have hnode := hkept.node
  have hspec := fun row hrow => Expr.conjunction?_spec (h.decided row hrow).predicates
  cases hconj : Expr.conjunction? ps with
  | none =>
    rw [hconj] at hnode hspec
    rw [hnode, h.rows_eq]
    exact ⟨hinput, (List.filter_eq_self.mpr hspec).symm⟩
  | some e =>
    rw [hconj] at hnode hspec
    have hcondition : ∀ row ∈ c.ranRows input,
        e.isPredicateOn (ofRow row) = true ∧ e.HasValue row := by
      intro row hrow
      obtain ⟨v, hv⟩ := (h.decided row hrow).conjunction? hconj
      exact ⟨(hspec row hrow).1, v, (evalOn_ofRow row e).symm.trans hv⟩
    obtain ⟨hproper, hrows⟩ := Cluster.proper_filter hnode hinput hcondition
      (Expr.lacks_conjunction? hlacks h.literals hconj)
    refine ⟨hproper, ?_⟩
    rw [hrows, h.rows_eq]
    exact List.filter_congr fun row hrow => (hspec row hrow).2

/-! ## Expressions over outputs -/

/-- The second expression says over the outputs of a projection what the first one says over its
input. -/
structure OverOutputs (lacks : DataType) (outputs : List Expr) (e e' : Expr) : Prop where
  evalOn_eq : ∀ row, e'.evalOn (projectOn outputs row) = e.evalOn row
  andsTruthful : ∀ row, e.andsTruthful row = true → e'.andsTruthful (projectOn outputs row) = true
  literals : e'.Lacks lacks

theorem overOutputs_of_overOutputs? {lacks : DataType} (hlacks : Value.SeparatesNumbers lacks)
    {outputs : List Expr} {rowType : RowType} {e e' : Expr} (houtputs : ∀ o ∈ outputs, o.Lacks lacks)
    (he : e.Lacks lacks) (h : overOutputs? outputs rowType e = some e') :
    OverOutputs lacks outputs e e' := by
  unfold overOutputs? at h
  split at h
  · next i hfind =>
    -- an output holds the value itself
    obtain ⟨hi, heq, -⟩ := List.findIdx?_eq_some_iff_getElem.mp hfind
    have hsame := Expr.eq_of_beq hlacks (houtputs _ (List.getElem_mem hi)) he heq
    obtain ⟨field, -, rfl⟩ := Option.map_eq_some_iff.mp h
    refine ⟨fun row => ?_, fun row _ => rfl, Expr.lacks_column _ _⟩
    rw [Expr.evalOn_column (by rw [projectOn, List.getElem?_map, List.getElem?_eq_getElem hi]; rfl),
      hsame]
  · -- outputs hold the columns
    obtain ⟨rfl, hcolumns⟩ := Expr.mapColumns?_eq_some h
    have hposition : ∀ i ∈ e.columnList, ∃ j, (outputs.findIdx? fun o => o.asColumn? == some i) =
        some j ∧ ∃ u, outputs[j]? = some (.column i u) := by
      intro i hi
      obtain ⟨t, p, hp⟩ := hcolumns i hi
      obtain ⟨j, hj, -⟩ := Option.map_eq_some_iff.mp hp
      obtain ⟨hlt, hcolumn, -⟩ := List.findIdx?_eq_some_iff_getElem.mp hj
      obtain ⟨u, hu⟩ := Expr.asColumn?_eq_some (beq_iff_eq.mp hcolumn)
      exact ⟨j, hj, u, by rw [List.getElem?_eq_getElem hlt, hu]⟩
    have heval : ∀ row, ∀ i ∈ e.columnList, ∀ t, Expr.evalOn (projectOn outputs row)
        (((outputs.findIdx? fun o => o.asColumn? == some i).map (Expr.column · t)).getD
          (.column i t)) = Expr.evalOn row (.column i t) := by
      intro row i hi t
      obtain ⟨j, hj, u, hu⟩ := hposition i hi
      rw [hj, Option.map_some, Option.getD_some,
        Expr.evalOn_column (by rw [projectOn, List.getElem?_map, hu]; rfl)]
      rfl
    refine ⟨fun row => Expr.evalOn_mapColumns (heval row), fun row hands => ?_, ?_⟩
    · refine Expr.andsTruthful_mapColumns (heval row) (fun i hi t => ?_) hands
      obtain ⟨j, hj, -⟩ := hposition i hi
      dsimp only
      rw [hj]
      rfl
    · refine Expr.lacks_mapColumns (fun i hi t => ?_) he
      obtain ⟨j, hj, -⟩ := hposition i hi
      dsimp only
      rw [hj]
      exact Expr.lacks_column _ _

theorem forall₂_overOutputs {lacks : DataType} (hlacks : Value.SeparatesNumbers lacks)
    {outputs es es' : List Expr} {rowType : RowType} (houtputs : ∀ o ∈ outputs, o.Lacks lacks)
    (hes : ∀ e ∈ es, e.Lacks lacks)
    (h : List.Forall₂ (fun e e' => overOutputs? outputs rowType e = some e') es es') :
    List.Forall₂ (OverOutputs lacks outputs) es es' := by
  induction h with
  | nil => exact .nil
  | cons he _ ih =>
    rw [List.forall_mem_cons] at hes
    exact .cons (overOutputs_of_overOutputs? hlacks houtputs hes.1 he) (ih hes.2)

theorem literals_of_overOutputs {lacks : DataType} {outputs es es' : List Expr}
    (h : List.Forall₂ (OverOutputs lacks outputs) es es') : ∀ e ∈ es', e.Lacks lacks := by
  induction h with
  | nil => simp
  | cons he _ ih => exact List.forall_mem_cons.mpr ⟨he.literals, ih⟩

section

variable {lacks : DataType} {outputs : List Expr} {e e' : Expr} {row : Row}
  (houtputs : ∀ o ∈ outputs, o.HasValue row)

include houtputs

theorem OverOutputs.eval_eq (h : OverOutputs lacks outputs e e') :
    e'.eval (projectedRow outputs row) = e.eval row := by
  rw [← evalOn_ofRow, ← evalOn_ofRow, ofRow_projectedRow houtputs, h.evalOn_eq]

theorem OverOutputs.isPredicateOn (h : OverOutputs lacks outputs e e')
    (he : e.isPredicateOn (ofRow row) = true) :
    e'.isPredicateOn (ofRow (projectedRow outputs row)) = true := by
  rw [Expr.isPredicateOn_iff] at he ⊢
  rw [ofRow_projectedRow houtputs, h.evalOn_eq]
  exact ⟨he.1, h.andsTruthful _ he.2⟩

theorem OverOutputs.holdsOn_eq (h : OverOutputs lacks outputs e e') :
    e'.holdsOn (ofRow (projectedRow outputs row)) = e.holdsOn (ofRow row) := by
  rw [Expr.holdsOn, Expr.holdsOn, ofRow_projectedRow houtputs, h.evalOn_eq]

end

/-- Conjuncts over outputs filter the projected rows as those over the input filter the rows. -/
theorem Filters.overOutputs {lacks : DataType} {outputs ps' : List Expr} {rows kept : List Row}
    (h : Filters lacks ps rows kept) (houtputs : ∀ row ∈ rows, ∀ o ∈ outputs, o.HasValue row)
    (hps : List.Forall₂ (OverOutputs lacks outputs) ps ps') :
    Filters lacks ps' (rows.map (projectedRow outputs)) (kept.map (projectedRow outputs)) := by
  have hall : ∀ row ∈ rows, ps'.all (·.holdsOn (ofRow (projectedRow outputs row))) =
      ps.all (·.holdsOn (ofRow row)) := by
    intro row hrow
    clear h
    induction hps with
    | nil => rfl
    | cons hp _ ih => rw [List.all_cons, List.all_cons, hp.holdsOn_eq (houtputs row hrow), ih]
  have hdecided : ∀ row ∈ rows, Expr.DecidedOn (ofRow (projectedRow outputs row)) ps' := by
    intro row hrow
    have hvalues := houtputs row hrow
    refine (h.decided row hrow).restate ?_ ?_
    · rw [ofRow_projectedRow hvalues]
      clear h hall
      induction hps with
      | nil => rfl
      | cons hp _ ih => rw [List.map_cons, List.map_cons, hp.evalOn_eq, ih]
    · have hpredicates := (h.decided row hrow).predicates
      clear h hall
      induction hps with
      | nil => simp
      | cons hp _ ih =>
        rw [List.forall_mem_cons] at hpredicates ⊢
        exact ⟨hp.isPredicateOn hvalues hpredicates.1, ih hpredicates.2⟩
  refine ⟨List.forall_mem_map.mpr hdecided, literals_of_overOutputs hps, ?_⟩
  rw [h.rows_eq, List.filter_map]
  congr 1
  exact List.filter_congr fun row hrow => (hall row hrow).symm

/-- Expressions over outputs have on a projected row the values that those over the input have on
the row. -/
theorem projectedRow_overOutputs {lacks : DataType} {outputs es es' : List Expr} {row : Row}
    (h : List.Forall₂ (OverOutputs lacks outputs) es es') (houtputs : ∀ o ∈ outputs, o.HasValue row)
    (hes : ∀ e ∈ es, e.andsTruthful (ofRow row) = true ∧ e.HasValue row) :
    (∀ e ∈ es', e.andsTruthful (ofRow (projectedRow outputs row)) = true ∧
      e.HasValue (projectedRow outputs row)) ∧
    projectedRow es' (projectedRow outputs row) = projectedRow es row := by
  induction h with
  | nil => exact ⟨by simp, rfl⟩
  | @cons e e' es es' he _ ih =>
    obtain ⟨⟨hands, v, hv⟩, hes⟩ := List.forall_mem_cons.mp hes
    obtain ⟨hvalues, hrow⟩ := ih hes
    have heval := he.eval_eq houtputs
    refine ⟨List.forall_mem_cons.mpr ⟨⟨?_, v, heval.trans hv⟩, hvalues⟩, ?_⟩
    · rw [ofRow_projectedRow houtputs]
      exact he.andsTruthful _ hands
    · show e'.valueOn _ :: projectedRow es' _ = e.valueOn row :: projectedRow es row
      rw [hrow, Expr.valueOn, Expr.valueOn, heval]

/-! ## Ways of computing a node -/

/-- How a node and a target are related where one is computed from the other. -/
inductive Found (c : Cluster) (id target : NodeId) : Unification → Prop
  | filter {residual : List Expr} (conjuncts : Residual c id target residual) :
      Found c id target (.filter residual)
  | project {v v' : Convention} {columns targetColumns : List (Expr × String)}
      {input targetInput : NodeId} {conjuncts residual exprs : List Expr}
      (node : c.IsNode id (.project v columns) [input])
      (targetNode : c.IsNode target (.project v' targetColumns) [targetInput])
      (below : Residual c input targetInput conjuncts)
      (leftover : List.Forall₂ (fun e e' =>
        overOutputs? (targetColumns.map Prod.fst) (c.rowType target) e = some e') conjuncts residual)
      (restated : List.Forall₂ (fun e e' =>
        overOutputs? (targetColumns.map Prod.fst) (c.rowType target) e = some e')
        (columns.map Prod.fst) exprs) :
      Found c id target (.project residual (exprs.zip (columns.map Prod.snd)))
  | aggregate {u : Unification} {group targetGroup : ColumnSet} {calls targetCalls : List AggregateCall}
      (node : (c.operator id).aggregate? = some (group, calls))
      (targetNode : (c.operator target).aggregate? = some (targetGroup, targetCalls))
      (found : (ofAggregates c id target group targetGroup calls targetCalls).Finds u) :
      Found c id target u

theorem found_of_finds {u : Unification} (hid : id < c.size) (htarget : target < c.size)
    (h : (Unification.of c id target).Finds u) : Found c id target u := by
  unfold Unification.of at h
  dsimp only at h
  split at h
  · next residual hdirect =>
    obtain rfl := Matching.finds_pure.mp h
    split at hdirect
    · exact .filter (residual_of_residual? hid htarget hdirect)
    · cases hdirect
  · split at h
    · next columns targetColumns hcolumns htargetColumns =>
      rw [Matching.finds_ofOption] at h
      unfold ofProjections? at h
      simp only [Option.bind_eq_bind, Option.bind_eq_some_iff] at h
      obtain ⟨input, hinput, targetInput, htargetInput, conjuncts, hconjuncts, exprs, hexprs,
        residual, hresidual, h⟩ := h
      cases h
      obtain ⟨v, hop⟩ := Operator.projection?_eq_some hcolumns
      obtain ⟨v', hop'⟩ := Operator.projection?_eq_some htargetColumns
      exact .project (Cluster.isNode_one hid hop rfl hinput)
        (Cluster.isNode_one htarget hop' rfl htargetInput)
        (residual_of_residual? (Cluster.lt_size_of_input? hinput)
          (Cluster.lt_size_of_input? htargetInput) hconjuncts)
        (Outcome.forall₂_of_mapM_eq_some hresidual)
        (List.forall₂_map_left_iff.mpr (Outcome.forall₂_of_mapM_eq_some hexprs))
    · next group calls targetGroup targetCalls hnode htargetNode _ =>
      exact .aggregate hnode htargetNode h
    · rw [Matching.finds_ofOption] at h
      cases h

/-! ## Building -/

theorem grows_projectOver (input : NodeId) (columns : List (Expr × String)) :
    (projectOver input columns).Grows := by
  refine (Planning.grows_read _).bind fun arity => ?_
  split
  · exact Planning.grows_pure _
  · exact Cluster.grows_createDefault _ _

theorem grows_fieldsOver (input : NodeId) (positions : List Nat) (names : List String) :
    (fieldsOver input positions names).Grows :=
  (Planning.grows_read _).bind fun _ => (Planning.grows_ofOption _).bind fun _ =>
    grows_projectOver _ _

theorem runs_fieldsOver {c' : Cluster} {input : NodeId} {positions : List Nat} {names : List String} :
    (fieldsOver input positions names).Runs c id c' ↔
      ∃ exprs, positions.mapM (Expr.field? (c.rowType input)) = some exprs ∧
        (projectOver input (exprs.zip (Operator.projectionNames exprs.length names))).Runs c id c' := by
  simp only [fieldsOver, Planning.runs_bind, Planning.runs_read, Planning.runs_ofOption]
  constructor
  · rintro ⟨_, _, ⟨rfl, rfl⟩, exprs, _, ⟨hexprs, rfl⟩, h⟩
    exact ⟨exprs, hexprs, h⟩
  · rintro ⟨exprs, hexprs, h⟩
    exact ⟨_, _, ⟨rfl, rfl⟩, exprs, _, ⟨hexprs, rfl⟩, h⟩

theorem grows_build (u : Unification) (replacement : NodeId) : (u.build replacement).Grows := by
  cases u with
  | filter residual => exact Rule.grows_keeping _ _
  | project residual columns =>
    exact (Rule.grows_keeping _ _).bind fun _ => grows_projectOver _ _
  | aggregate r =>
    unfold build
    dsimp only
    split
    · exact grows_fieldsOver _ _ _
    · exact (Cluster.grows_createDefault _ _).bind fun _ => grows_fieldsOver _ _ _

/-- A projection, or its input if that is the same. -/
def Projected (c : Cluster) (input : NodeId) (columns : List (Expr × String)) (id : NodeId) : Prop :=
  c.IsNode id (.project .none columns) [input] ∨
    id = input ∧ Expr.areIdentity (columns.map Prod.fst) (c.arity input) = true

theorem runs_projectOver {c' : Cluster} {input : NodeId} {columns : List (Expr × String)}
    (h : (projectOver input columns).Runs c id c') :
    c.Extends c' ∧ Projected c' input columns id := by
  simp only [projectOver, Planning.runs_bind, Planning.runs_read] at h
  obtain ⟨_, _, ⟨rfl, rfl⟩, h⟩ := h
  split at h
  · next hidentity =>
    obtain ⟨rfl, rfl⟩ := Planning.runs_pure.mp h
    exact ⟨.refl _, .inr ⟨rfl, hidentity⟩⟩
  · obtain ⟨hgrow, hnode⟩ := Cluster.runs_createDefault h
    exact ⟨hgrow, .inl hnode⟩

theorem Projected.mono {input : NodeId} {columns : List (Expr × String)}
    (h : Projected c input columns id) (hinput : input < c.size) (hC : c.Extends C) :
    Projected C input columns id := by
  rcases h with hnode | ⟨rfl, hidentity⟩
  · exact .inl (hnode.mono hC)
  · exact .inr ⟨rfl, by rw [hC.arity_eq hinput]; exact hidentity⟩

theorem Projected.arity_eq {input : NodeId} {columns : List (Expr × String)}
    (h : Projected c input columns id) : c.arity id = columns.length := by
  rcases h with hnode | ⟨rfl, hidentity⟩
  · exact hnode.arity_project
  · simpa using (Expr.length_of_areIdentity hidentity).symm

theorem Projected.proper {lacks : DataType} {input : NodeId} {columns : List (Expr × String)}
    (h : Projected c input columns id) (hinput : c.Proper lacks input)
    (hexprs : ∀ row ∈ c.ranRows input, ∀ e ∈ columns.map Prod.fst,
      e.andsTruthful (ofRow row) = true ∧ e.HasValue row)
    (hliterals : ∀ e ∈ columns.map Prod.fst, e.Lacks lacks) : c.Proper lacks id ∧
      c.ranRows id = (c.ranRows input).map (projectedRow (columns.map Prod.fst)) := by
  rcases h with hnode | ⟨rfl, hidentity⟩
  · exact Cluster.proper_project hnode hinput hexprs hliterals
  · refine ⟨hinput, ?_⟩
    have hsame : ∀ row ∈ c.ranRows id, projectedRow (columns.map Prod.fst) row = row := by
      intro row hrow
      have hwidth := (hinput.under id .root).width row hrow
      exact projectedRow_identity (by rw [hwidth]; exact hidentity)
        fun e he => (hexprs row hrow e he).2
    rw [List.map_congr_left hsame, List.map_id']

end Unification

end QueryPlan
