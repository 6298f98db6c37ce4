import QueryPlan.Proofs.Operator.Typing
import QueryPlan.Proofs.Planner.Registration
import QueryPlan.Proofs.Rule.Offers
import QueryPlan.Proofs.Session.Walks
/-!
# Well typed plans

A plan is well typed if every node of it passes its check, and its expressions are typed over the columns
of its inputs. What keeps a node well typed, with the types of its columns, keeps every node above it so:
that is a congruence.
-/
namespace QueryPlan.Cluster

/-- Types of the columns of a node. -/
def types (c : Cluster) (id : NodeId) : List DataType := (c.rowType id).types

/-- Every node of the plan passes its check and has expressions that are typed over its inputs. -/
inductive WellTyped (c : Cluster) : NodeId → Prop
  | node {id : NodeId} (inputs : ∀ j ∈ c.inputs id, WellTyped c j) (check : c.check id = .ok ())
      (typed : (c.operator id).isTyped ((c.inputs id).map c.types) = true) : WellTyped c id

variable {c c' : Cluster} {id j : NodeId}

theorem WellTyped.inputs (h : c.WellTyped id) : ∀ j ∈ c.inputs id, c.WellTyped j := by
  cases h with
  | node inputs _ _ => exact inputs

theorem WellTyped.check (h : c.WellTyped id) : c.check id = .ok () := by
  cases h with
  | node _ check _ => exact check

theorem WellTyped.typed (h : c.WellTyped id) :
    (c.operator id).isTyped ((c.inputs id).map c.types) = true := by
  cases h with
  | node _ _ typed => exact typed

theorem WellTyped.valid (h : c.WellTyped id) : c.Valid id := by
  induction h with
  | node _ check _ ih => exact .node ih check

theorem WellTyped.inPlan {root : NodeId} (h : c.WellTyped root) (hid : c.InPlan root id) :
    c.WellTyped id := by
  induction hid with
  | root => exact h
  | input _ hj ih => exact ih.inputs _ hj

/-- A node is well typed if every node of the session has typed expressions and passes its check. -/
theorem WellTyped.of_all (hid : id < c.size)
    (h : ∀ i < c.size, (c.check i).isOk = true ∧
      (c.operator i).isTyped ((c.inputs i).map c.types) = true) : c.WellTyped id := by
  have hvalid : c.Valid id := .of_all hid fun i hi => (h i hi).1
  induction hvalid with
  | node inputs check ih =>
    exact .node (fun j hj => ih j hj (inputs_lt_size hj)) check (h _ hid).2

theorem Extends.types_eq (h : c.Extends c') (hid : id < c.size) : c'.types id = c.types id := by
  rw [types, types, h.rowType_eq hid]

theorem Extends.inputTypes_eq (h : c.Extends c') (hid : id < c.size) :
    (c'.inputs id).map c'.types = (c.inputs id).map c.types := by
  rw [h.inputs_eq hid]
  exact List.map_congr_left fun _ hj => h.types_eq (inputs_lt_size hj)

theorem WellTyped.mono (hc : c.Extends c') (hid : id < c.size) (h : c.WellTyped id) :
    c'.WellTyped id := by
  induction h with
  | node inputs check typed ih =>
    refine .node (fun j hj => ?_) (by rw [hc.check_eq hid, check])
      (by rw [hc.operator_eq hid, hc.inputTypes_eq hid, typed])
    rw [hc.inputs_eq hid] at hj
    exact ih j hj (inputs_lt_size hj)

/-- If the first node is well typed then the second one is, with the same column types. -/
def KeepsTypes (c : Cluster) (i j : NodeId) : Prop :=
  c.WellTyped i → c.WellTyped j ∧ c.types j = c.types i

theorem keepsTypes_inputs {is js : List NodeId} (h : List.Forall₂ c.KeepsTypes is js)
    (his : ∀ i ∈ is, c.WellTyped i) : (∀ j ∈ js, c.WellTyped j) ∧ js.map c.types = is.map c.types := by
  induction h with
  | nil => exact ⟨by simp, rfl⟩
  | cons hhead _ ih =>
    obtain ⟨hi, his⟩ := List.forall_mem_cons.mp his
    obtain ⟨hj, heq⟩ := hhead hi
    obtain ⟨hjs, heqs⟩ := ih his
    exact ⟨List.forall_mem_cons.mpr ⟨hj, hjs⟩, by rw [List.map_cons, List.map_cons, heq, heqs]⟩

theorem map_types (is : List NodeId) : (is.map c.rowType).map RowType.types = is.map c.types := by
  rw [List.map_map]
  rfl

theorem keepsTypes_congruence (c : Cluster) : c.Congruence c.KeepsTypes where
  refl _ h := ⟨h, rfl⟩
  trans hij hjk hi := ⟨(hjk (hij hi).1).1, (hjk (hij hi).1).2.trans (hij hi).2⟩
  node {i j} hi hj hop _ hin hwell := by
    obtain ⟨hinputs, htypes⟩ := keepsTypes_inputs hin hwell.inputs
    have hrows : ((c.inputs j).map c.rowType).map RowType.types =
        ((c.inputs i).map c.rowType).map RowType.types := by rw [map_types, map_types, htypes]
    have hcheck := hwell.check
    unfold Cluster.check at hcheck
    have hpasses := Outcome.mapError_eq_ok.mp hcheck
    refine ⟨.node hinputs ?_ ?_, ?_⟩
    · unfold Cluster.check
      rw [hop, Operator.check_congr _ hrows, hpasses]
      rfl
    · rw [hop, htypes]
      exact hwell.typed
    · rw [types, types, rowType_eq hj, rowType_eq hi, hop]
      exact Operator.types_congr _ hrows

/-! ## Filters, projections and joins -/

section

variable {v : Convention} {condition : Expr} {input : NodeId}

theorem IsNode.types_filter (h : c.IsNode id (.filter v condition) [input]) :
    c.types id = c.types input := by
  rw [types, rowType_eq h.lt_size, h.operator_eq, h.inputs_eq]
  rfl

theorem IsNode.wellTyped_filter (h : c.IsNode id (.filter v condition) [input]) :
    c.WellTyped id ↔ c.WellTyped input ∧ condition.isTypedCondition (c.types input) = true := by
  have htyped : (c.operator id).isTyped ((c.inputs id).map c.types) =
      condition.isTypedCondition (c.types input) := by
    rw [h.operator_eq, h.inputs_eq]
    rfl
  constructor
  · intro hid
    exact ⟨hid.inputs input (by simp [h.inputs_eq]), htyped ▸ hid.typed⟩
  · rintro ⟨hinput, hcondition⟩
    refine .node (fun j hj => ?_) ?_ (htyped.trans hcondition)
    · rw [h.inputs_eq, List.mem_singleton] at hj
      exact hj ▸ hinput
    · obtain ⟨htruth, hcolumns⟩ := Expr.isTypedCondition_iff.mp hcondition
      have hcheck := Expr.checkColumns_of_isTyped "condition" hcolumns (RowType.length_types _)
      unfold Cluster.check
      rw [h.operator_eq, h.inputs_eq, Outcome.mapError_eq_ok]
      rcases Expr.isCondition_iff.mp htruth with htype | htype
      · simp only [Operator.check, htype]
        exact hcheck
      · simp only [Operator.check, htype]
        exact hcheck

end

section

variable {v : Convention} {columns : List (Expr × String)} {input : NodeId}

theorem IsNode.types_project {inputs : List NodeId} (h : c.IsNode id (.project v columns) inputs) :
    c.types id = (columns.map Prod.fst).map Expr.dataType := by
  rw [types, rowType_eq h.lt_size, h.operator_eq, RowType.types, Operator.rowType, List.map_map,
    List.map_map]
  rfl

theorem IsNode.wellTyped_project (h : c.IsNode id (.project v columns) [input]) :
    c.WellTyped id ↔ c.WellTyped input ∧ ∀ e ∈ columns.map Prod.fst, e.isTyped (c.types input) = true := by
  have htyped : (c.operator id).isTyped ((c.inputs id).map c.types) = true ↔
      ∀ e ∈ columns.map Prod.fst, e.isTyped (c.types input) = true := by
    rw [h.operator_eq, h.inputs_eq, List.forall_mem_map]
    exact List.all_eq_true
  constructor
  · intro hid
    exact ⟨hid.inputs input (by simp [h.inputs_eq]), htyped.mp hid.typed⟩
  · rintro ⟨hinput, hexprs⟩
    refine .node (fun j hj => ?_) ?_ (htyped.mpr hexprs)
    · rw [h.inputs_eq, List.mem_singleton] at hj
      exact hj ▸ hinput
    · unfold Cluster.check
      rw [h.operator_eq, h.inputs_eq, Outcome.mapError_eq_ok]
      refine Outcome.forM_eq_ok.mpr fun p hp => ?_
      exact Expr.checkColumns_of_isTyped "expression" (hexprs p.1 (List.mem_map_of_mem hp))
        (RowType.length_types _)

end

section

variable {joinType : JoinType} {condition : Expr} {left right : NodeId}

/-- A join that is no semi join has the columns of both sides. -/
theorem IsNode.types_pairs {algorithm : JoinAlgorithm} (halgorithm : algorithm ≠ .semi)
    (h : c.IsNode id (.join algorithm joinType condition) [left, right]) :
    c.types id = c.types left ++ c.types right := by
  rw [types, rowType_eq h.lt_size, h.operator_eq, h.inputs_eq]
  cases algorithm with
  | semi => exact absurd rfl halgorithm
  | _ => exact RowType.types_join _ _ _ _

theorem IsNode.types_join (h : c.IsNode id (.join .logical joinType condition) [left, right]) :
    c.types id = c.types left ++ c.types right := types_pairs (by decide) h

theorem IsNode.wellTyped_join (h : c.IsNode id (.join .logical joinType condition) [left, right]) :
    c.WellTyped id ↔ (c.WellTyped left ∧ c.WellTyped right) ∧
      condition.isTypedCondition (c.types left ++ c.types right) = true := by
  have htyped : (c.operator id).isTyped ((c.inputs id).map c.types) =
      condition.isTypedCondition (c.types left ++ c.types right) := by
    rw [h.operator_eq, h.inputs_eq]
    rfl
  constructor
  · intro hid
    exact ⟨⟨hid.inputs left (by simp [h.inputs_eq]), hid.inputs right (by simp [h.inputs_eq])⟩,
      htyped ▸ hid.typed⟩
  · rintro ⟨⟨hleft, hright⟩, hcondition⟩
    refine .node (fun j hj => ?_) ?_ (htyped.trans hcondition)
    · rw [h.inputs_eq, List.mem_pair] at hj
      rcases hj with rfl | rfl
      · exact hleft
      · exact hright
    · unfold Cluster.check
      rw [h.operator_eq, h.inputs_eq, Outcome.mapError_eq_ok]
      refine Expr.checkColumns_of_isTyped "condition" (Expr.isTypedCondition_iff.mp hcondition).2 ?_
      rw [List.length_append, types, types, RowType.length_types, RowType.length_types]
      rfl

end

end QueryPlan.Cluster
