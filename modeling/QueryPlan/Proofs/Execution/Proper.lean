import QueryPlan.Proofs.Execution.Meaning
import QueryPlan.Proofs.Execution.Success
import QueryPlan.Proofs.Rule.Offers
/-!
# Plans that run without an error

A proper plan has rows, and at each of its nodes three things hold: the rows are as wide as the row
type, the conditions are predicates on the rows that reach them, and one kind of number does not
occur among the literals. `TakesPlace` says that a node may stand for another one: if the plan under
the one is proper then so is the plan under the other, and it has the same rows. Unlike the relation
by which a planner is sound, it promises that no error is added.
-/
namespace QueryPlan

open OutcomeRow Execution

/-- The expressions that an operator evaluates on its rows. -/
def Operator.exprs : Operator → List Expr
  | filter _ condition => [condition]
  | project _ columns => columns.map Prod.fst
  | join _ _ condition => [condition]
  | _ => []

namespace Cluster

variable {c c' : Cluster} {lacks : DataType} {id : NodeId}

/-- What is asked of a node of a proper plan itself. -/
structure ProperAt (c : Cluster) (lacks : DataType) (id : NodeId) : Prop where
  width : HaveWidth (c.arity id) (c.ranRows id)
  truthful : Meaning.truthful (c.operator id)
    ((c.inputs id).map fun j => .ofRows (c.ranRows j)) = true
  literals : ∀ e ∈ (c.operator id).exprs, e.Lacks lacks

instance (c : Cluster) (lacks : DataType) (id : NodeId) : Decidable (c.ProperAt lacks id) :=
  decidable_of_iff
    (HaveWidth (c.arity id) (c.ranRows id) ∧
      Meaning.truthful (c.operator id) ((c.inputs id).map fun j => .ofRows (c.ranRows j)) = true ∧
      ∀ e ∈ (c.operator id).exprs, e.Lacks lacks)
    ⟨fun ⟨h, h', h''⟩ => ⟨h, h', h''⟩, fun h => ⟨h.width, h.truthful, h.literals⟩⟩

/-- What is asked of every node of a plan. -/
def ProperUnder (c : Cluster) (lacks : DataType) (root : NodeId) : Prop :=
  ∀ id, c.Under root id → c.ProperAt lacks id

/-- The plan under a node has rows and is as it should be at every node. -/
structure Proper (c : Cluster) (lacks : DataType) (root : NodeId) : Prop where
  delivers : c.Delivers root (c.ranRows root)
  under : c.ProperUnder lacks root

/-- Rows are as wide as row types in a plan that passes its checks, over tables that store rows of
the declared width. -/
theorem width_of_checked {root : NodeId} (hroot : root < c.size) (hchecked : c.Checked root)
    (hid : c.Under root id) : HaveWidth (c.arity id) (c.ranRows id) := by
  have hlt := hid.lt_size hroot
  rcases ranRows_delivers hlt with hnil | hdel
  · rw [hnil]
    intro row hrow
    cases hrow
  · exact hdel.width hlt (hchecked.under hid)

theorem ProperUnder.of_all {root : NodeId} (hroot : root < c.size)
    (h : ∀ id < c.size, c.ProperAt lacks id) : c.ProperUnder lacks root :=
  fun id hid => h id (hid.lt_size hroot)

/-! ## In a larger session -/

theorem ProperAt.mono (h : c.ProperAt lacks id) (hid : id < c.size) (hc : c.Extends c') :
    c'.ProperAt lacks id where
  width := by
    rw [hc.arity_eq hid, hc.ranRows_eq hid]
    exact h.width
  truthful := by
    rw [hc.operator_eq hid, hc.inputs_eq hid]
    have hrows := List.map_congr_left fun j (hj : j ∈ c.inputs id) =>
      congrArg Meaning.ofRows (hc.ranRows_eq (inputs_lt_size hj))
    rw [hrows]
    exact h.truthful
  literals := by
    rw [hc.operator_eq hid]
    exact h.literals

theorem ProperUnder.mono {root : NodeId} (h : c.ProperUnder lacks root) (hroot : root < c.size)
    (hc : c.Extends c') : c'.ProperUnder lacks root := by
  intro id hid
  have hid := hc.under hroot hid
  exact (h id hid).mono (hid.lt_size hroot) hc

/-! ## Nodes over proper inputs -/

theorem chosenMember?_eq_none (hsub : (c.operator id).isSubset = false) :
    (c.node id).chosenMember? = none := by
  cases hchosen : (c.node id).chosenMember? with
  | none => rfl
  | some m =>
    have hmem := chosenMember?_mem hchosen
    cases hn : c.nodes[id]? with
    | none => simp [node, hn, default, instInhabitedNode.default] at hmem
    | some n =>
      have hnode : c.node id = n := by simp [node, hn]
      rw [operator, hnode] at hsub
      rw [hnode, (c.wellFormed id n hn).members_nil hsub] at hmem
      cases hmem

/-- A node under a root is the root or under an input of it or under its member. -/
theorem Under.cases_root {root : NodeId} (h : c.Under root id) :
    id = root ∨ (∃ j ∈ c.inputs root, c.Under j id) ∨
      ∃ m, (c.node root).chosenMember? = some m ∧ c.Under m id := by
  induction h with
  | root => exact .inl rfl
  | input _ hj ih =>
    rcases ih with rfl | ⟨k, hk, hunder⟩ | ⟨m, hm, hunder⟩
    · exact .inr (.inl ⟨_, hj, .root⟩)
    · exact .inr (.inl ⟨k, hk, .input hunder hj⟩)
    · exact .inr (.inr ⟨m, hm, .input hunder hj⟩)
  | member _ hchosen ih =>
    rcases ih with rfl | ⟨k, hk, hunder⟩ | ⟨m, hm, hunder⟩
    · exact .inr (.inr ⟨_, hchosen, .root⟩)
    · exact .inr (.inl ⟨k, hk, .member hunder hchosen⟩)
    · exact .inr (.inr ⟨m, hm, .member hunder hchosen⟩)

/-- The rows of a node that is no subset are its operator's over those of its inputs. -/
theorem delivers_iff (hsub : (c.operator id).isSubset = false) {rows : List Row} :
    c.Delivers id rows ↔ (∀ j ∈ c.inputs id, c.Delivers j (c.ranRows j)) ∧
      c.nodeRows false id ((c.inputs id).map c.ranRows) = .ok rows := by
  constructor
  · intro h
    cases h with
    | node rowsOf hinputs hown =>
      have hrows : ∀ j ∈ c.inputs id, c.ranRows j = rowsOf j := fun j hj =>
        ranRows_of_delivers (inputs_lt_size hj) (hinputs j hj)
      refine ⟨fun j hj => ?_, ?_⟩
      · rw [hrows j hj]
        exact hinputs j hj
      · rw [List.map_congr_left hrows]
        exact hown
    | member hsub' =>
      rw [hsub] at hsub'
      cases hsub'
  · rintro ⟨hinputs, hown⟩
    exact .node _ hinputs hown

theorem proper_iff (hsub : (c.operator id).isSubset = false) :
    c.Proper lacks id ↔ (∀ j ∈ c.inputs id, c.Proper lacks j) ∧
      c.nodeRows false id ((c.inputs id).map c.ranRows) = .ok (c.ranRows id) ∧
      c.ProperAt lacks id := by
  constructor
  · intro h
    obtain ⟨hinputs, hown⟩ := (delivers_iff hsub).mp h.delivers
    refine ⟨fun j hj => ⟨hinputs j hj, fun i hi => ?_⟩, hown, h.under id .root⟩
    exact h.under i (Under.trans (.input .root hj) hi)
  · rintro ⟨hinputs, hown, hat⟩
    refine ⟨(delivers_iff hsub).mpr ⟨fun j hj => (hinputs j hj).delivers, hown⟩, fun i hi => ?_⟩
    rcases hi.cases_root with rfl | ⟨j, hj, hunder⟩ | ⟨m, hm, -⟩
    · exact hat
    · exact (hinputs j hj).under i hunder
    · rw [chosenMember?_eq_none hsub] at hm
      cases hm

/-- A node is proper if its inputs are and its operator has rows over theirs. -/
theorem proper_of_nodeRows (hid : id < c.size) (hsub : (c.operator id).isSubset = false)
    (hinputs : ∀ j ∈ c.inputs id, c.Proper lacks j) {rows : List Row}
    (hown : c.nodeRows false id ((c.inputs id).map c.ranRows) = .ok rows)
    (hat : c.ranRows id = rows → c.ProperAt lacks id) : c.Proper lacks id ∧ c.ranRows id = rows := by
  have hrows : c.ranRows id = rows := ranRows_of_delivers hid <|
    (delivers_iff hsub).mpr ⟨fun j hj => (hinputs j hj).delivers, hown⟩
  refine ⟨(proper_iff hsub).mpr ⟨hinputs, ?_, hat hrows⟩, hrows⟩
  rw [hrows]
  exact hown

/-! ## Standing for a node without an error -/

/-- The second node may take the place of the first one in a proper plan. -/
def TakesPlace (c : Cluster) (lacks : DataType) (i j : NodeId) : Prop :=
  c.arity j = c.arity i ∧
    (c.Proper lacks i → c.Proper lacks j ∧ c.ranRows j = c.ranRows i)

theorem TakesPlace.refl (i : NodeId) : c.TakesPlace lacks i i := ⟨rfl, fun h => ⟨h, rfl⟩⟩

theorem TakesPlace.trans {i j k : NodeId} (h : c.TakesPlace lacks i j)
    (h' : c.TakesPlace lacks j k) : c.TakesPlace lacks i k := by
  refine ⟨h'.1.trans h.1, fun hi => ?_⟩
  obtain ⟨hj, hrows⟩ := h.2 hi
  obtain ⟨hk, hrows'⟩ := h'.2 hj
  exact ⟨hk, hrows'.trans hrows⟩

theorem map_arity_of_takesPlace {is js : List NodeId}
    (h : List.Forall₂ (c.TakesPlace lacks) is js) : is.map c.arity = js.map c.arity := by
  induction h with
  | nil => rfl
  | cons h _ ih => rw [List.map_cons, List.map_cons, h.1, ih]

theorem proper_inputs {is js : List NodeId} (h : List.Forall₂ (c.TakesPlace lacks) is js)
    (his : ∀ i ∈ is, c.Proper lacks i) :
    (∀ j ∈ js, c.Proper lacks j) ∧ js.map c.ranRows = is.map c.ranRows := by
  induction h with
  | nil => exact ⟨by simp, rfl⟩
  | cons h _ ih =>
    obtain ⟨hi, his⟩ := List.forall_mem_cons.mp his
    obtain ⟨hj, hrows⟩ := h.2 hi
    obtain ⟨hjs, hrowss⟩ := ih his
    exact ⟨List.forall_mem_cons.mpr ⟨hj, hjs⟩, by rw [List.map_cons, List.map_cons, hrows, hrowss]⟩

/-- A node over inputs that take the place of another node's takes that node's place. -/
theorem takesPlace_congruence (c : Cluster) (lacks : DataType) :
    c.Congruence (c.TakesPlace lacks) where
  refl := .refl
  trans := .trans
  node {i j} hi hj hop hsub hin := by
    have harities := map_arity_of_takesPlace hin
    have harity := arity_congr hi hj hop harities
    refine ⟨harity.symm, fun hproper => ?_⟩
    obtain ⟨hinputs, hown, hat⟩ := (proper_iff hsub).mp hproper
    obtain ⟨hinputs', hrows⟩ := proper_inputs hin hinputs
    refine proper_of_nodeRows hj (by rw [hop, hsub]) hinputs' ?_ fun heq => ⟨?_, ?_, ?_⟩
    · rw [hrows, nodeRows_congr hop hsub harities]
      exact hown
    · rw [heq, ← harity]
      exact hat.width
    · have hmeanings := congrArg (List.map Meaning.ofRows) hrows
      rw [List.map_map, List.map_map] at hmeanings
      have htruthful := hat.truthful
      rw [hop]
      rw [show (c.inputs i).map (fun j => Meaning.ofRows (c.ranRows j)) =
        (c.inputs j).map (fun j => Meaning.ofRows (c.ranRows j)) from hmeanings.symm] at htruthful
      exact htruthful
    · rw [hop]
      exact hat.literals

/-! ## Filters and projections -/

section

variable {input : NodeId} {convention : Convention} {condition : Expr}
  (hnode : c.IsNode id (.filter convention condition) [input])

include hnode

theorem IsNode.nodeRows_filter {rows kept : List Row} :
    c.nodeRows false id [rows] = .ok kept ↔ filterRows condition rows = .ok kept := by
  have hop : (c.node id).operator = .filter convention condition := hnode.operator_eq
  simp only [nodeRows, hop, Bool.false_and, Bool.false_eq_true, if_false]
  exact Outcome.mapError_eq_ok

theorem properAt_filter_iff : c.ProperAt lacks id ↔ HaveWidth (c.arity id) (c.ranRows id) ∧
    (∀ row ∈ c.ranRows input, condition.isPredicateOn (ofRow row) = true) ∧
    condition.Lacks lacks := by
  have htruthful : Meaning.truthful (c.operator id)
      ((c.inputs id).map fun j => .ofRows (c.ranRows j)) = true ↔
      ∀ row ∈ c.ranRows input, condition.isPredicateOn (ofRow row) = true := by
    rw [hnode.operator_eq, hnode.inputs_eq]
    show ((c.ranRows input).map ofRow).all _ = true ↔ _
    rw [List.all_map, List.all_eq_true]
    rfl
  have hliterals : (∀ e ∈ (c.operator id).exprs, e.Lacks lacks) ↔ condition.Lacks lacks := by
    rw [hnode.operator_eq]
    exact List.forall_mem_singleton
  constructor
  · intro h
    exact ⟨h.width, htruthful.mp h.truthful, hliterals.mp h.literals⟩
  · rintro ⟨hwidth, hpredicate, hlacks⟩
    exact ⟨hwidth, htruthful.mpr hpredicate, hliterals.mpr hlacks⟩

/-- A filter of a proper plan is over a proper plan. -/
theorem Proper.of_filter (h : c.Proper lacks id) : c.Proper lacks input ∧
    (∀ row ∈ c.ranRows input, condition.isPredicateOn (ofRow row) = true ∧
      condition.HasValue row) ∧
    condition.Lacks lacks ∧
    c.ranRows id = (c.ranRows input).filter (condition.holdsOn <| ofRow ·) := by
  obtain ⟨hinputs, hown, hat⟩ := (proper_iff (by rw [hnode.operator_eq]; rfl)).mp h
  rw [hnode.inputs_eq] at hinputs hown
  obtain ⟨-, hpredicate, hlacks⟩ := (properAt_filter_iff hnode).mp hat
  obtain ⟨hvalues, hrows⟩ := filterRows_eq_ok_iff.mp (hnode.nodeRows_filter.mp hown)
  exact ⟨hinputs input List.mem_cons_self, fun row hrow => ⟨hpredicate row hrow, hvalues row hrow⟩,
    hlacks, hrows⟩

/-- A filter over a proper plan is proper if its condition has truth values on all rows. -/
theorem proper_filter (hinput : c.Proper lacks input)
    (hcondition : ∀ row ∈ c.ranRows input, condition.isPredicateOn (ofRow row) = true ∧
      condition.HasValue row)
    (hlacks : condition.Lacks lacks) : c.Proper lacks id ∧
      c.ranRows id = (c.ranRows input).filter (condition.holdsOn <| ofRow ·) := by
  refine proper_of_nodeRows hnode.lt_size (by rw [hnode.operator_eq]; rfl) ?_ ?_ fun hrows => ?_
  · rw [hnode.inputs_eq]
    exact List.forall_mem_singleton.mpr hinput
  · rw [hnode.inputs_eq]
    exact hnode.nodeRows_filter.mpr
      (filterRows_eq_ok_iff.mpr ⟨fun row hrow => (hcondition row hrow).2, rfl⟩)
  · refine (properAt_filter_iff hnode).mpr ⟨?_, fun row hrow => (hcondition row hrow).1, hlacks⟩
    rw [hrows, hnode.arity_filter]
    exact fun row hrow => (hinput.under input .root).width row (List.mem_of_mem_filter hrow)

end

section

variable {input : NodeId} {convention : Convention} {columns : List (Expr × String)}
  (hnode : c.IsNode id (.project convention columns) [input])

include hnode

theorem IsNode.nodeRows_project {rows projected : List Row} :
    c.nodeRows false id [rows] = .ok projected ↔
      rows.mapM (projectRow (columns.map Prod.fst)) = .ok projected := by
  have hop : (c.node id).operator = .project convention columns := hnode.operator_eq
  simp only [nodeRows, hop, Bool.false_and, Bool.false_eq_true, if_false]
  exact Outcome.mapError_eq_ok

theorem properAt_project_iff : c.ProperAt lacks id ↔ HaveWidth (c.arity id) (c.ranRows id) ∧
    (∀ row ∈ c.ranRows input, ∀ e ∈ columns.map Prod.fst, e.andsTruthful (ofRow row) = true) ∧
    ∀ e ∈ columns.map Prod.fst, e.Lacks lacks := by
  have htruthful : Meaning.truthful (c.operator id)
      ((c.inputs id).map fun j => .ofRows (c.ranRows j)) = true ↔
      ∀ row ∈ c.ranRows input, ∀ e ∈ columns.map Prod.fst, e.andsTruthful (ofRow row) = true := by
    rw [hnode.operator_eq, hnode.inputs_eq]
    show ((c.ranRows input).map ofRow).all _ = true ↔ _
    simp only [List.all_map, List.all_eq_true, List.forall_mem_map, Function.comp]
  have hliterals : (∀ e ∈ (c.operator id).exprs, e.Lacks lacks) ↔
      ∀ e ∈ columns.map Prod.fst, e.Lacks lacks := by
    rw [hnode.operator_eq]
    rfl
  constructor
  · intro h
    exact ⟨h.width, htruthful.mp h.truthful, hliterals.mp h.literals⟩
  · rintro ⟨hwidth, hands, hlacks⟩
    exact ⟨hwidth, htruthful.mpr hands, hliterals.mpr hlacks⟩

/-- A projection of a proper plan is over a proper plan. -/
theorem Proper.of_project (h : c.Proper lacks id) : c.Proper lacks input ∧
    (∀ row ∈ c.ranRows input, ∀ e ∈ columns.map Prod.fst,
      e.andsTruthful (ofRow row) = true ∧ e.HasValue row) ∧
    (∀ e ∈ columns.map Prod.fst, e.Lacks lacks) ∧
    c.ranRows id = (c.ranRows input).map (projectedRow (columns.map Prod.fst)) := by
  obtain ⟨hinputs, hown, hat⟩ := (proper_iff (by rw [hnode.operator_eq]; rfl)).mp h
  rw [hnode.inputs_eq] at hinputs hown
  obtain ⟨-, hands, hlacks⟩ := (properAt_project_iff hnode).mp hat
  obtain ⟨hvalues, hrows⟩ := projectRows_eq_ok_iff.mp (hnode.nodeRows_project.mp hown)
  exact ⟨hinputs input List.mem_cons_self,
    fun row hrow e he => ⟨hands row hrow e he, hvalues row hrow e he⟩, hlacks, hrows⟩

/-- A projection over a proper plan is proper if its expressions have values on all rows. -/
theorem proper_project (hinput : c.Proper lacks input)
    (hexprs : ∀ row ∈ c.ranRows input, ∀ e ∈ columns.map Prod.fst,
      e.andsTruthful (ofRow row) = true ∧ e.HasValue row)
    (hlacks : ∀ e ∈ columns.map Prod.fst, e.Lacks lacks) : c.Proper lacks id ∧
      c.ranRows id = (c.ranRows input).map (projectedRow (columns.map Prod.fst)) := by
  refine proper_of_nodeRows hnode.lt_size (by rw [hnode.operator_eq]; rfl) ?_ ?_ fun hrows => ?_
  · rw [hnode.inputs_eq]
    exact List.forall_mem_singleton.mpr hinput
  · rw [hnode.inputs_eq]
    exact hnode.nodeRows_project.mpr
      (projectRows_eq_ok_iff.mpr ⟨fun row hrow e he => (hexprs row hrow e he).2, rfl⟩)
  · refine (properAt_project_iff hnode).mpr
      ⟨?_, fun row hrow e he => (hexprs row hrow e he).1, hlacks⟩
    rw [hrows, hnode.arity_project]
    intro row hrow
    obtain ⟨r, -, rfl⟩ := List.mem_map.mp hrow
    rw [length_projectedRow, List.length_map]

end

end Cluster

end QueryPlan
