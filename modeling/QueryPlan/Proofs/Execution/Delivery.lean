import QueryPlan.Proofs.Execution.Memory
import QueryPlan.Proofs.Session.Congruence
/-!
# The rows of a node

`Delivers c id rows` gives every node rows without running anything: a node has those of its operator
over the rows of its inputs, and a subset those of the member that stands for it. A node has one list
of rows at most, a larger session gives it the same one, and nodes with equal rows and arities may
stand for each other under any operator.
-/
namespace QueryPlan

/-! ## Arities -/

namespace RowType

theorem arity_widenFields {as bs fs : List Field} (h : widenFields as bs = some fs) :
    fs.length = as.length ∧ bs.length = as.length := by
  induction as generalizing bs fs with
  | nil =>
    cases bs with
    | nil => cases h; exact ⟨rfl, rfl⟩
    | cons b bs => cases h
  | cons a as ih =>
    cases bs with
    | nil => cases h
    | cons b bs =>
      obtain ⟨f, hf, h⟩ := Option.bind_eq_some_iff.mp h
      obtain ⟨fs', hfs, h⟩ := Option.bind_eq_some_iff.mp h
      cases h
      obtain ⟨h₁, h₂⟩ := ih hfs
      exact ⟨congrArg (· + 1) h₁, congrArg (· + 1) h₂⟩

theorem arity_widen {a b t : RowType} (h : a.widen b = some t) :
    t.arity = a.arity ∧ b.arity = a.arity := by
  obtain ⟨fs, hfs, rfl⟩ := Option.map_eq_some_iff.mp h
  exact arity_widenFields hfs

theorem arity_foldlM_widen {ts : List RowType} {a t : RowType} (h : ts.foldlM widen a = some t) :
    t.arity = a.arity ∧ ∀ u ∈ ts, u.arity = a.arity := by
  induction ts generalizing a with
  | nil =>
    cases h
    exact ⟨rfl, by simp⟩
  | cons u ts ih =>
    obtain ⟨b, hb, h⟩ := Option.bind_eq_some_iff.mp h
    obtain ⟨hbt, hu⟩ := arity_widen hb
    obtain ⟨ht, hts⟩ := ih h
    refine ⟨ht.trans hbt, ?_⟩
    intro v hv
    rcases List.mem_cons.mp hv with rfl | hv
    · exact hu
    · exact (hts v hv).trans hbt

/-- Row types with a common one have as many columns as the first of them. -/
theorem arity_leastRestrictive {ts : List RowType} {t : RowType}
    (h : leastRestrictive ts = some t) : ∀ u ∈ ts, u.arity = t.arity := by
  cases ts with
  | nil => cases h
  | cons a ts =>
    obtain ⟨ht, hts⟩ := arity_foldlM_widen h
    intro u hu
    rcases List.mem_cons.mp hu with rfl | hu
    · exact ht.symm
    · exact (hts u hu).trans ht.symm

theorem arity_getD_leastRestrictive (ts : List RowType) :
    ((leastRestrictive ts).getD (ts[0]?.getD default)).arity = (ts[0]?.getD default).arity := by
  cases ts with
  | nil => rfl
  | cons a ts =>
    cases h : leastRestrictive (a :: ts) with
    | none => rfl
    | some t => exact (arity_leastRestrictive h a List.mem_cons_self).symm

theorem arity_join (left right : RowType) (padsLeft padsRight : Bool) :
    (left.join right padsLeft padsRight).arity = left.arity + right.arity := by
  simp [join, arity]

theorem arity_eq_of_isCompatible {a b : RowType} (h : a.isCompatible b = true) :
    a.arity = b.arity := by
  have := congrArg List.length (beq_iff_eq.mp h)
  simpa [arity] using this

end RowType

theorem arity_getD_getElem? {ts us : List RowType}
    (h : ts.map RowType.arity = us.map RowType.arity) (i : Nat) :
    (ts[i]?.getD default).arity = (us[i]?.getD default).arity := by
  have hi := congrArg (·[i]?) h
  simp only [List.getElem?_map] at hi
  cases ht : ts[i]? with
  | none =>
    rw [ht] at hi
    rw [Option.map_eq_none_iff.mp hi.symm]
  | some t =>
    rw [ht] at hi
    obtain ⟨u, hu, heq⟩ := Option.map_eq_some_iff.mp hi.symm
    rw [hu]
    exact heq.symm

theorem length_filterMap_getElem? {α : Type} (l : List α) (positions : List Nat) :
    (positions.filterMap (l[·]?)).length = (positions.filter (· < l.length)).length := by
  induction positions with
  | nil => rfl
  | cons i positions ih =>
    rcases Nat.lt_or_ge i l.length with hi | hi
    · simp [hi, ih]
    · simp [Nat.not_lt.mpr hi, ih]

/-- The number of columns of an operator depends on nothing but its inputs' numbers of columns. -/
theorem Operator.arity_rowType_congr (o : Operator) {ts us : List RowType}
    (h : ts.map RowType.arity = us.map RowType.arity) :
    (o.rowType ts).arity = (o.rowType us).arity := by
  have first := arity_getD_getElem? h 0
  have second := arity_getD_getElem? h 1
  cases o with
  | scan | values | subset => rfl
  | filter | sort | exchange | sortExchange => exact first
  | project _ columns => simp [rowType, RowType.arity]
  | join algorithm joinType _ =>
    cases algorithm with
    | semi => exact first
    | _ =>
      simp only [rowType, RowType.arity_join]
      rw [first, second]
  | correlate _ _ _ joinType =>
    simp only [rowType]
    split
    · simp only [RowType.arity_join]
      rw [first, second]
    · exact first
  | aggregate _ group calls =>
    simp only [rowType, RowType.arity, List.length_append, List.length_map,
      length_filterMap_getElem?]
    simp only [RowType.arity] at first
    rw [first]
  | union | intersect | minus =>
    simp only [rowType, RowType.arity_getD_leastRestrictive]
    exact first

/-- A scan gives what the table has for rows, unless the table has none. -/
theorem Table.source_of_scan {t : Table} {outcome : Except PlanError (List Row)}
    (h : t.scan = outcome) (hname : outcome ≠ .error (.noRowSource t.name)) : t.source = some outcome := by
  unfold scan at h
  cases hsource : t.source with
  | none =>
    rw [hsource] at h
    exact absurd h.symm hname
  | some own =>
    rw [hsource] at h
    exact congrArg some h

namespace Cluster

theorem arity_eq {c : Cluster} {id : NodeId} (h : id < c.size) :
    c.arity id = ((c.operator id).rowType ((c.inputs id).map c.rowType)).arity := by
  rw [arity, rowType_eq h]

theorem map_arity_inputs (c : Cluster) (id : NodeId) :
    (c.inputs id).map c.arity = ((c.inputs id).map c.rowType).map RowType.arity := by
  rw [List.map_map]
  rfl

/-! ## Rows without a run -/

theorem nodeRows_subset {c : Cluster} {cancelled : Bool} {id : NodeId} {inputs : List (List Row)}
    {rows : List Row} (h : c.nodeRows cancelled id inputs = .ok rows) :
    (c.operator id).isSubset = false := by
  unfold nodeRows at h
  unfold operator
  dsimp only at h
  split at h
  · cases h
  · cases hop : (c.node id).operator with
    | subset rowType =>
      rw [hop] at h
      cases h
    | _ => rfl

/-- The rows of a node that is no subset are those of its table or computed from its inputs. -/
theorem nodeRows_eq {c : Cluster} {id : NodeId} (hsub : (c.operator id).isSubset = false)
    (rows : List (List Row)) :
    c.nodeRows false id rows =
      match (c.operator id).table? with
      | some t => t.scan
      | none => (Execution.operatorRows (c.operator id) ((c.inputs id).map c.arity) rows).mapError
          .evaluation := by
  unfold nodeRows
  unfold operator at hsub ⊢
  unfold inputs
  dsimp only
  generalize (c.node id).operator = o at hsub ⊢
  cases o <;> first | rfl | cases hsub

/-- Rows that are there when a run is cancelled are there when it is not. -/
theorem nodeRows_of_cancelled {c : Cluster} {cancelled : Bool} {id : NodeId}
    {inputs : List (List Row)} {rows : List Row} (h : c.nodeRows cancelled id inputs = .ok rows) :
    c.nodeRows false id inputs = .ok rows := by
  cases cancelled with
  | false => exact h
  | true =>
    unfold nodeRows at h ⊢
    dsimp only at h ⊢
    split at h
    · cases h
    · exact h

/-- Rows of a node are those that its table stores, or what its operator makes of those of its
inputs. -/
theorem nodeRows_cases {c : Cluster} {cancelled : Bool} {id : NodeId} {inputs : List (List Row)}
    {rows : List Row} (h : c.nodeRows cancelled id inputs = .ok rows) :
    (∃ v table, c.operator id = .scan v table ∧ table.source = some (.ok rows)) ∨
      (c.operator id).table? = none ∧
        Execution.operatorRows (c.operator id) ((c.inputs id).map c.arity) inputs = .ok rows := by
  have hsub := nodeRows_subset h
  replace h := nodeRows_of_cancelled h
  rw [nodeRows_eq hsub] at h
  cases hop : c.operator id with
  | scan v table =>
    rw [hop] at h
    exact .inl ⟨v, table, rfl, Table.source_of_scan h (by nofun)⟩
  | _ =>
    rw [hop] at h
    exact .inr ⟨rfl, Outcome.mapError_eq_ok.mp h⟩

/-- The rows of a node, if it has any. -/
inductive Delivers (c : Cluster) : NodeId → List Row → Prop
  | node {id : NodeId} {rows : List Row} (rowsOf : NodeId → List Row)
      (inputs : ∀ j ∈ c.inputs id, Delivers c j (rowsOf j))
      (own : c.nodeRows false id ((c.inputs id).map rowsOf) = .ok rows) : Delivers c id rows
  | member {id m : NodeId} {rows : List Row} (subset : (c.operator id).isSubset = true)
      (chosen : (c.node id).chosenMember? = some m) (member : Delivers c m rows) :
      Delivers c id rows

theorem Delivers.unique {c : Cluster} {id : NodeId} {rows rows' : List Row}
    (h : c.Delivers id rows) (h' : c.Delivers id rows') : rows = rows' := by
  induction h generalizing rows' with
  | node rowsOf _ hrows ih =>
    cases h' with
    | node rowsOf' hinputs' hrows' =>
      have : (c.inputs _).map rowsOf = (c.inputs _).map rowsOf' :=
        List.map_congr_left fun j hj => ih j hj (hinputs' j hj)
      rw [this, hrows'] at hrows
      cases hrows
      rfl
    | member hsub =>
      rw [nodeRows_subset hrows] at hsub
      cases hsub
  | member hsub hchosen _ ih =>
    cases h' with
    | node _ _ hrows' =>
      rw [nodeRows_subset hrows'] at hsub
      cases hsub
    | member _ hchosen' hmember' =>
      rw [hchosen] at hchosen'
      cases hchosen'
      exact ih hmember'

/-- A subset has the rows of the member that stands for it. -/
theorem delivers_member_iff {c : Cluster} {id m : NodeId} {rows : List Row}
    (hsub : (c.operator id).isSubset = true) (hchosen : (c.node id).chosenMember? = some m) :
    c.Delivers id rows ↔ c.Delivers m rows := by
  constructor
  · intro h
    cases h with
    | node _ _ hrows =>
      rw [nodeRows_subset hrows] at hsub
      cases hsub
    | member _ hchosen' hmember =>
      rw [hchosen] at hchosen'
      cases hchosen'
      exact hmember
  · exact .member hsub hchosen

theorem delivers_of_evaluate {c : Cluster} {cancelled : Bool} {id : NodeId} {rows : List Row}
    (h : c.evaluate cancelled id = .ok rows) : c.Delivers id rows := by
  -- on the number of the node: its inputs have smaller numbers
  induction id using Nat.strongRecOn generalizing rows with
  | ind id ih =>
    rw [evaluate_eq, Outcome.bind_eq_ok] at h
    obtain ⟨inputs, hinputs, hrows⟩ := h
    obtain ⟨rowsOf, hrowsOf, rfl⟩ := Outcome.exists_map_of_mapM_eq_ok hinputs
    exact .node rowsOf (fun j hj => ih j (c.inputs_lt hj) (hrowsOf j hj))
      (nodeRows_of_cancelled hrows)

/-- The member that stands for a subset is a node with as many columns. -/
theorem chosenMember?_spec {c : Cluster} {id m : NodeId}
    (h : (c.node id).chosenMember? = some m) : m < c.size ∧ c.arity id = c.arity m :=
  have hmem := chosenMember?_mem h
  ⟨members_lt_size hmem, RowType.arity_eq_of_isCompatible (isCompatible_of_mem_members hmem)⟩

section

variable {c c' : Cluster}

theorem Extends.nodeRows_eq (h : c.Extends c') {id : NodeId} (hid : id < c.size)
    (cancelled : Bool) (inputs : List (List Row)) :
    c'.nodeRows cancelled id inputs = c.nodeRows cancelled id inputs := by
  have harities : (c.node id).inputs.map c'.arity = (c.node id).inputs.map c.arity :=
    List.map_congr_left fun j hj => h.arity_eq (inputs_lt_size hj)
  unfold nodeRows
  rw [h.node_eq hid]
  dsimp only
  rw [harities]

/-- A larger session gives a node the same rows. -/
theorem Extends.delivers_iff (h : c.Extends c') {id : NodeId} (hid : id < c.size)
    {rows : List Row} : c'.Delivers id rows ↔ c.Delivers id rows := by
  constructor
  · intro hdel
    induction hdel with
    | node rowsOf _ hrows ih =>
      rw [h.inputs_eq hid] at ih hrows
      rw [h.nodeRows_eq hid] at hrows
      exact .node rowsOf (fun j hj => ih j hj (inputs_lt_size hj)) hrows
    | member hsub hchosen _ ih =>
      rw [h.operator_eq hid] at hsub
      rw [h.node_eq hid] at hchosen
      exact .member hsub hchosen (ih (chosenMember?_spec hchosen).1)
  · intro hdel
    induction hdel with
    | node rowsOf _ hrows ih =>
      refine .node rowsOf (fun j hj => ?_) ?_
      · rw [h.inputs_eq hid] at hj
        exact ih j hj (inputs_lt_size hj)
      · rw [h.inputs_eq hid, h.nodeRows_eq hid]
        exact hrows
    | member hsub hchosen _ ih =>
      refine .member ?_ ?_ (ih (chosenMember?_spec hchosen).1)
      · rw [h.operator_eq hid]
        exact hsub
      · rw [h.node_eq hid]
        exact hchosen

/-! ## Nodes with the same rows -/

/-- The nodes have as many columns and the same rows, if they have any. -/
def SameRows (c : Cluster) (i j : NodeId) : Prop :=
  (∀ rows, c.Delivers i rows ↔ c.Delivers j rows) ∧ c.arity i = c.arity j

theorem nodeRows_congr {cancelled : Bool} {i j : NodeId} (hop : c.operator j = c.operator i)
    (hsub : (c.operator i).isSubset = false)
    (harities : (c.inputs i).map c.arity = (c.inputs j).map c.arity) (inputs : List (List Row)) :
    c.nodeRows cancelled j inputs = c.nodeRows cancelled i inputs := by
  unfold operator at hop hsub
  unfold Cluster.inputs at harities
  unfold nodeRows
  dsimp only
  rw [hop, harities]
  generalize (c.node i).operator = o at hsub
  cases o <;> first | rfl | cases hsub

theorem arity_congr {i j : NodeId} (hi : i < c.size) (hj : j < c.size)
    (hop : c.operator j = c.operator i) (harities : (c.inputs i).map c.arity = (c.inputs j).map c.arity) :
    c.arity i = c.arity j := by
  rw [arity_eq hi, arity_eq hj, hop]
  apply Operator.arity_rowType_congr
  rw [List.map_map, List.map_map]
  exact harities

theorem map_arity_eq {is js : List NodeId} (h : List.Forall₂ c.SameRows is js) :
    is.map c.arity = js.map c.arity := by
  induction h with
  | nil => rfl
  | cons h _ ih => rw [List.map_cons, List.map_cons, h.2, ih]

/-- Rows for one list of nodes are rows for a related one. -/
theorem exists_rowsOf {is js : List NodeId} {rowsOf : NodeId → List Row}
    (h : List.Forall₂ (fun i j => ∀ rows, c.Delivers i rows → c.Delivers j rows) is js)
    (hrows : ∀ i ∈ is, c.Delivers i (rowsOf i)) :
    ∃ rowsOf' : NodeId → List Row,
      (∀ j ∈ js, c.Delivers j (rowsOf' j)) ∧ js.map rowsOf' = is.map rowsOf := by
  classical
  let rowsOf' : NodeId → List Row := fun j =>
    if h : ∃ rows, c.Delivers j rows then Classical.choose h else []
  have hrowsOf' : ∀ j rows, c.Delivers j rows → rowsOf' j = rows := by
    intro j rows hj
    have hex : ∃ rows, c.Delivers j rows := ⟨rows, hj⟩
    simp only [rowsOf', dif_pos hex]
    exact (Classical.choose_spec hex).unique hj
  refine ⟨rowsOf', ?_⟩
  induction h with
  | nil => exact ⟨by simp, rfl⟩
  | cons hij _ ih =>
    obtain ⟨hall, heq⟩ := ih fun i hi => hrows i (List.mem_cons_of_mem _ hi)
    have hj := hij _ (hrows _ List.mem_cons_self)
    refine ⟨?_, by rw [List.map_cons, List.map_cons, heq, hrowsOf' _ _ hj]⟩
    intro k hk
    rcases List.mem_cons.mp hk with rfl | hk
    · rw [hrowsOf' _ _ hj]
      exact hj
    · exact hall k hk

/-- A node delivers what a node with the same operator does over inputs that deliver no less. -/
theorem Delivers.congr {i j : NodeId} (hop : c.operator j = c.operator i)
    (hsub : (c.operator i).isSubset = false)
    (harities : (c.inputs i).map c.arity = (c.inputs j).map c.arity)
    (hin : List.Forall₂ (fun i j => ∀ rows, c.Delivers i rows → c.Delivers j rows)
      (c.inputs i) (c.inputs j)) {rows : List Row} (h : c.Delivers i rows) : c.Delivers j rows := by
  cases h with
  | node rowsOf hinputs hrows =>
    obtain ⟨rowsOf', hinputs', heq⟩ := exists_rowsOf hin hinputs
    refine .node rowsOf' hinputs' ?_
    rw [heq, nodeRows_congr hop hsub harities]
    exact hrows
  | member hsub' =>
    rw [hsub] at hsub'
    cases hsub'

theorem sameRows_congruence (c : Cluster) : c.Congruence c.SameRows where
  refl _ := ⟨fun _ => Iff.rfl, rfl⟩
  trans h h' := ⟨fun rows => (h.1 rows).trans (h'.1 rows), h.2.trans h'.2⟩
  node {i j} hi hj hop hsub hin := by
    have harities := map_arity_eq hin
    refine ⟨fun rows => ⟨?_, ?_⟩, arity_congr hi hj hop harities⟩
    · exact .congr hop hsub harities (hin.imp fun _ _ h rows => (h.1 rows).mp)
    · rw [← hop] at hsub
      exact .congr hop.symm hsub harities.symm
        (hin.flip.imp fun _ _ h rows => (h.1 rows).mpr)

end

end Cluster

end QueryPlan
