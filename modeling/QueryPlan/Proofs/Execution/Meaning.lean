import QueryPlan.Proofs.Execution.JoinRows
import QueryPlan.Proofs.Execution.Stripping
/-!
# What a plan means where evaluation may fail

The meaning of a node is computed like its rows, but over rows of outcomes: it exists for every plan,
also for one between two changes of a planner that the interpreter would report an error for. With
the rows go the *possible* rows: those that the inputs of a filter or a join could supply, were no
row dropped by a condition below. They are what the conditions of a plan are asked to be predicates
on, so that a condition may move to where more rows reach it.

An operator other than a filter, a projection or a join is computed as the interpreter does, and
returns nothing where it would fail.
-/
namespace QueryPlan

open OutcomeRow Execution

/-- Rows of a node, and rows that could be among them. -/
structure Meaning where
  rows : List OutcomeRow
  possible : List OutcomeRow

namespace Meaning

/-- Rows without failures. -/
def ofRows (rows : List Row) : Meaning := ⟨rows.map ofRow, rows.map ofRow⟩

/-- No rows. -/
instance : Inhabited Meaning := ⟨ofRows []⟩

/-- The rows, if none of them has a failure in it. -/
def rows? (m : Meaning) : Option (List Row) := m.rows.mapM values?

/-- Rows are possible rows, and all of them have that many values. -/
structure Fits (n : Nat) (m : Meaning) : Prop where
  subset : ∀ row ∈ m.rows, row ∈ m.possible
  width : ∀ row ∈ m.possible, row.length = n

theorem Fits.rows_width {n : Nat} {m : Meaning} (h : Fits n m) :
    ∀ row ∈ m.rows, row.length = n := fun row hrow => h.width row (h.subset row hrow)

/-- Rows of which none are possible are none. -/
theorem Fits.rows_eq_nil {n : Nat} {m : Meaning} (h : Fits n m) (hempty : m.possible = []) :
    m.rows = [] := by
  apply List.eq_nil_iff_forall_not_mem.mpr
  intro row hrow
  have := h.subset row hrow
  rw [hempty] at this
  cases this

theorem Fits.eq_empty {n : Nat} {m : Meaning} (h : Fits n m) (hempty : m.possible = []) :
    m = ⟨[], []⟩ := by
  have hrows := h.rows_eq_nil hempty
  obtain ⟨rows, possible⟩ := m
  dsimp only at hrows hempty
  rw [hrows, hempty]

theorem fits_ofRows {n : Nat} {rows : List Row} (h : HaveWidth n rows) : Fits n (ofRows rows) where
  subset _ hrow := hrow
  width row hrow := by
    obtain ⟨r, hr, rfl⟩ := List.mem_map.mp hrow
    rw [length_ofRow, h r hr]

/-- The same rows, and no more possible ones. -/
structure Refines (m m' : Meaning) : Prop where
  rows_eq : m.rows = m'.rows
  possible_subset : ∀ row ∈ m.possible, row ∈ m'.possible

theorem Refines.refl (m : Meaning) : Refines m m := ⟨rfl, fun _ h => h⟩

theorem Refines.trans {m₁ m₂ m₃ : Meaning} (h : Refines m₁ m₂) (h' : Refines m₂ m₃) :
    Refines m₁ m₃ :=
  ⟨h.rows_eq.trans h'.rows_eq, fun row hrow => h'.possible_subset row (h.possible_subset row hrow)⟩

theorem rows?_of_rows_eq {m : Meaning} {rows : List Row} (h : m.rows = rows.map ofRow) :
    m.rows? = some rows := by
  unfold rows?
  rw [h]
  clear h
  induction rows with
  | nil => rfl
  | cons row rows ih =>
    rw [List.map_cons, List.mapM_cons, values?_ofRow, ih]
    rfl

theorem rows_eq_of_rows? {m : Meaning} {rows : List Row} (h : m.rows? = some rows) :
    m.rows = rows.map ofRow := by
  have hforall := Outcome.forall₂_of_mapM_eq_some h
  clear h
  generalize m.rows = outcomes at hforall ⊢
  induction hforall with
  | nil => rfl
  | cons hrow _ ih => rw [List.map_cons, ← ih, ofRow_of_values? hrow]

/-! ## Operators -/

/-- What the interpreter computes, if there is no failure. -/
def strict (o : Operator) (arities : List Nat) (inputs : List Meaning) : Meaning :=
  match inputs.mapM rows? with
  | none => default
  | some rows => ofRows ((operatorRows o arities rows).toOption.getD [])

/-- Meaning of an operator over inputs. `supplied` are the rows that a subset has from the member that
stands for it. -/
def ofOperator (supplied : List Row) (o : Operator) (arities : List Nat) (inputs : List Meaning) :
    Meaning :=
  let first := inputs[0]?.getD default
  let second := inputs[1]?.getD default
  match o with
  | .subset _ => ofRows supplied
  | .scan _ table => ofRows (table.scan.toOption.getD [])
  | .filter _ condition => ⟨first.rows.filter (condition.holdsOn ·), first.possible⟩
  | .project _ columns =>
    ⟨first.rows.map (projectOn (columns.map Prod.fst)),
      first.possible.map (projectOn (columns.map Prod.fst))⟩
  | .join .semi _ condition =>
    ⟨first.rows.filter fun left => second.rows.any (joins condition left), first.possible⟩
  | .join _ joinType condition =>
    let leftCount := arities[0]?.getD 0
    let rightCount := arities[1]?.getD 0
    ⟨joinOn joinType.padsLeft joinType.padsRight leftCount rightCount (joins condition) first.rows
        second.rows,
      pairs joinType.padsLeft joinType.padsRight leftCount rightCount first.possible
        second.possible⟩
  | o => strict o arities inputs

/-- Only a subset depends on what is supplied for it. -/
theorem ofOperator_of_not_subset {o : Operator} (h : o.isSubset = false) (supplied : List Row)
    {supplied' : List Row} {arities : List Nat} {inputs : List Meaning} :
    ofOperator supplied o arities inputs = ofOperator supplied' o arities inputs := by
  cases o with
  | subset rowType => cases h
  | join algorithm joinType condition => cases algorithm <;> rfl
  | _ => rfl

/-- Conditions are predicates on the possible rows of the inputs, and the operands of the
conjunctions in projected expressions are truth values on them. -/
def truthful (o : Operator) (inputs : List Meaning) : Bool :=
  let first := inputs[0]?.getD default
  let second := inputs[1]?.getD default
  match o with
  | .filter _ condition => first.possible.all (condition.isPredicateOn ·)
  | .project _ columns => first.possible.all fun row => columns.all (·.1.andsTruthful row)
  | .join _ _ condition =>
    first.possible.all fun left => second.possible.all fun right =>
      condition.isPredicateOn (left ++ right)
  | _ => true

/-- Inputs that refine others position by position do so where an operator reads them. -/
theorem refines_getD {inputs inputs' : List Meaning} (h : List.Forall₂ Refines inputs inputs')
    (i : Nat) : Refines (inputs[i]?.getD default) (inputs'[i]?.getD default) := by
  induction h generalizing i with
  | nil => exact .refl _
  | cons hfirst _ ih =>
    cases i with
    | zero => exact hfirst
    | succ i => exact ih i

theorem strict_congr {o : Operator} {arities : List Nat} {inputs inputs' : List Meaning}
    (h : List.Forall₂ Refines inputs inputs') : strict o arities inputs = strict o arities inputs' := by
  have hrows : inputs.mapM rows? = inputs'.mapM rows? := by
    induction h with
    | nil => rfl
    | cons hfirst _ ih =>
      rw [List.mapM_cons, List.mapM_cons, ih]
      unfold rows?
      rw [hfirst.rows_eq]
  rw [strict, strict, hrows]

theorem pairs_subset {padsLeft padsRight : Bool} {m n : Nat}
    {lefts lefts' rights rights' : List OutcomeRow} (hlefts : ∀ row ∈ lefts, row ∈ lefts')
    (hrights : ∀ row ∈ rights, row ∈ rights') :
    ∀ row ∈ pairs padsLeft padsRight m n lefts rights,
      row ∈ pairs padsLeft padsRight m n lefts' rights' := by
  intro row hrow
  rw [mem_pairs] at hrow ⊢
  rcases hrow with ⟨l, hl, r, hr, rfl⟩ | ⟨hpads, l, hl, rfl⟩ | ⟨hpads, r, hr, rfl⟩
  · exact .inl ⟨l, hlefts l hl, r, hrights r hr, rfl⟩
  · exact .inr (.inl ⟨hpads, l, hlefts l hl, rfl⟩)
  · exact .inr (.inr ⟨hpads, r, hrights r hr, rfl⟩)

/-- Every operator keeps refinement. -/
theorem ofOperator_refines {supplied : List Row} {o : Operator} {arities : List Nat}
    {inputs inputs' : List Meaning} (h : List.Forall₂ Refines inputs inputs') :
    Refines (ofOperator supplied o arities inputs) (ofOperator supplied o arities inputs') := by
  have first := refines_getD h 0
  have second := refines_getD h 1
  cases o with
  | filter convention condition =>
    refine ⟨?_, first.possible_subset⟩
    simp only [ofOperator, first.rows_eq]
  | project convention columns =>
    refine ⟨by simp only [ofOperator, first.rows_eq], fun row hrow => ?_⟩
    obtain ⟨r, hr, rfl⟩ := List.mem_map.mp hrow
    exact List.mem_map_of_mem (first.possible_subset r hr)
  | join algorithm joinType condition =>
    cases algorithm with
    | semi =>
      refine ⟨?_, first.possible_subset⟩
      simp only [ofOperator, first.rows_eq, second.rows_eq]
    | _ =>
      refine ⟨?_, pairs_subset first.possible_subset second.possible_subset⟩
      simp only [ofOperator, first.rows_eq, second.rows_eq]
  | scan | subset => exact .refl _
  | _ =>
    simp only [ofOperator]
    rw [strict_congr h]
    exact .refl _

/-- Fewer possible rows leave fewer to be truthful on. -/
theorem truthful_of_refines {o : Operator} {inputs inputs' : List Meaning}
    (h : List.Forall₂ Refines inputs inputs') (ho : truthful o inputs' = true) :
    truthful o inputs = true := by
  have first := (refines_getD h 0).possible_subset
  have second := (refines_getD h 1).possible_subset
  cases o with
  | filter convention condition =>
    simp only [truthful, List.all_eq_true] at ho ⊢
    exact fun row hrow => ho row (first row hrow)
  | project convention columns =>
    simp only [truthful, List.all_eq_true] at ho ⊢
    exact fun row hrow => ho row (first row hrow)
  | join algorithm joinType condition =>
    simp only [truthful, List.all_eq_true] at ho ⊢
    exact fun l hl r hr => ho l (first l hl) r (second r hr)
  | _ => rfl

/-! ## Widths -/

theorem fits_empty (n : Nat) : Fits n default := fits_ofRows fun row hrow => by cases hrow

theorem fits_getD {types : List RowType} {inputs : List Meaning}
    (h : List.Forall₂ (fun (t : RowType) m => Fits t.arity m) types inputs) (i : Nat) :
    Fits (types[i]?.getD default).arity (inputs[i]?.getD default) :=
  Outcome.forall₂_getD (R := fun (t : RowType) m => Fits t.arity m) (fits_empty _) h i

theorem fits_strict {o : Operator} {types : List RowType} {inputs : List Meaning}
    (ho : o.Regular (types.map RowType.arity))
    (h : List.Forall₂ (fun (t : RowType) m => Fits t.arity m) types inputs) :
    Fits (o.rowType types).arity (strict o (types.map RowType.arity) inputs) := by
  unfold strict
  split
  · exact fits_empty _
  · next rows hrows =>
    apply fits_ofRows
    cases hop : operatorRows o (types.map RowType.arity) rows with
    | error e => exact fun row hrow => by cases hrow
    | ok result =>
      refine operatorRows_width ho ?_ hop
      have hforall := Outcome.forall₂_of_mapM_eq_some hrows
      clear hop hrows ho
      induction h generalizing rows with
      | nil =>
        cases hforall
        exact .nil
      | cons hfirst _ ih =>
        cases hforall with
        | cons hhead htail =>
          refine .cons (fun row hrow => ?_) (ih _ htail)
          have hmem := List.mem_map_of_mem (f := ofRow) hrow
          rw [← rows_eq_of_rows? hhead] at hmem
          rw [← hfirst.rows_width _ hmem, length_ofRow]

theorem fits_pairs {joinType : JoinType} {m n : Nat} {hit : OutcomeRow → OutcomeRow → Bool}
    {left right : Meaning} (hleft : Fits m left) (hright : Fits n right) :
    Fits (m + n) ⟨joinOn joinType.padsLeft joinType.padsRight m n hit left.rows right.rows,
      pairs joinType.padsLeft joinType.padsRight m n left.possible right.possible⟩ where
  subset row hrow := pairs_subset hleft.subset hright.subset row (joinOn_subset row hrow)
  width row hrow := by
    rcases mem_pairs.mp hrow with ⟨l, hl, r, hr, rfl⟩ | ⟨-, l, hl, rfl⟩ | ⟨-, r, hr, rfl⟩
    · rw [List.length_append, hleft.width l hl, hright.width r hr]
    · rw [List.length_append, hleft.width l hl, OutcomeRow.length_nulls]
    · rw [List.length_append, OutcomeRow.length_nulls, hright.width r hr]

/-- Rows of an operator fit its row type if those of its inputs fit theirs. -/
theorem fits_ofOperator {supplied : List Row} {o : Operator} {types : List RowType}
    {inputs : List Meaning} (ho : o.Regular (types.map RowType.arity))
    (hsupplied : o.isSubset = true → HaveWidth (o.rowType types).arity supplied)
    (h : List.Forall₂ (fun (t : RowType) m => Fits t.arity m) types inputs) :
    Fits (o.rowType types).arity (ofOperator supplied o (types.map RowType.arity) inputs) := by
  have first := fits_getD h 0
  have second := fits_getD h 1
  cases o with
  | subset rowType => exact fits_ofRows (hsupplied rfl)
  | scan convention table =>
    apply fits_ofRows
    cases hscan : table.scan with
    | error e => exact fun row hrow => by cases hrow
    | ok rows => exact Table.StoresWidth.scan ho hscan
  | filter convention condition =>
    exact ⟨fun row hrow => first.subset row (List.mem_of_mem_filter hrow), first.width⟩
  | project convention columns =>
    refine ⟨fun row hrow => ?_, fun row hrow => ?_⟩
    · obtain ⟨r, hr, rfl⟩ := List.mem_map.mp hrow
      exact List.mem_map_of_mem (first.subset r hr)
    · obtain ⟨r, -, rfl⟩ := List.mem_map.mp hrow
      simp [length_projectOn, Operator.rowType, RowType.arity]
  | join algorithm joinType condition =>
    cases algorithm with
    | semi => exact ⟨fun row hrow => first.subset row (List.mem_of_mem_filter hrow), first.width⟩
    | _ =>
      simp only [ofOperator, getD_map_arity, Operator.rowType, RowType.arity_join]
      exact fits_pairs first second
  | _ => exact fits_strict ho h

end Meaning

namespace Cluster

/-- Meaning of the plan under a node. `supplied` gives the rows of subsets. -/
def meaning (c : Cluster) (supplied : NodeId → List Row) (id : NodeId) : Meaning :=
  Meaning.ofOperator (supplied id) (c.operator id) ((c.inputs id).map c.arity)
    ((c.inputsBelow id).map fun ⟨input, _⟩ => c.meaning supplied input)
termination_by id

/-- Whether the conditions of the plan under a node are predicates on the rows that may reach them. -/
def truthful (c : Cluster) (supplied : NodeId → List Row) (id : NodeId) : Bool :=
  Meaning.truthful (c.operator id) ((c.inputs id).map (c.meaning supplied)) &&
    (c.inputsBelow id).all fun ⟨input, _⟩ => c.truthful supplied input
termination_by id

variable {c : Cluster} {supplied : NodeId → List Row}

theorem meaning_eq (c : Cluster) (supplied : NodeId → List Row) (id : NodeId) :
    c.meaning supplied id = Meaning.ofOperator (supplied id) (c.operator id)
      ((c.inputs id).map c.arity) ((c.inputs id).map (c.meaning supplied)) := by
  rw [meaning, ← inputsBelow_map_val, List.map_map, List.map_map]
  rfl

theorem truthful_iff {id : NodeId} :
    c.truthful supplied id = true ↔
      Meaning.truthful (c.operator id) ((c.inputs id).map (c.meaning supplied)) = true ∧
        ∀ j ∈ c.inputs id, c.truthful supplied j = true := by
  rw [truthful, Bool.and_eq_true, List.all_eq_true]
  refine and_congr_right fun _ => ?_
  constructor
  · intro h j hj
    rw [← inputsBelow_map_val] at hj
    obtain ⟨⟨j, hlt⟩, hmem, rfl⟩ := List.mem_map.mp hj
    exact h _ hmem
  · intro h ⟨j, hlt⟩ hj
    refine h j ?_
    rw [← inputsBelow_map_val]
    exact List.mem_map_of_mem hj

/-! ## In a larger session -/

theorem Extends.meaning_eq {c' : Cluster} {id : NodeId} {supplied' : NodeId → List Row}
    (h : c.Extends c')
    (hsupplied : ∀ i < c.size, supplied' i = supplied i) (hid : id < c.size) :
    c'.meaning supplied' id = c.meaning supplied id := by
  induction id using Nat.strongRecOn with
  | ind id ih =>
    have hinputs : (c.inputs id).map (c'.meaning supplied') =
        (c.inputs id).map (c.meaning supplied) :=
      List.map_congr_left fun j hj => ih j (c.inputs_lt hj) (inputs_lt_size hj)
    have harities : (c.inputs id).map c'.arity = (c.inputs id).map c.arity :=
      List.map_congr_left fun j hj => h.arity_eq (inputs_lt_size hj)
    rw [Cluster.meaning_eq, Cluster.meaning_eq, h.operator_eq hid, h.inputs_eq hid,
      hsupplied id hid, hinputs, harities]

theorem Extends.truthful_eq {c' : Cluster} {id : NodeId} {supplied' : NodeId → List Row}
    (h : c.Extends c')
    (hsupplied : ∀ i < c.size, supplied' i = supplied i) (hid : id < c.size) :
    c'.truthful supplied' id = c.truthful supplied id := by
  induction id using Nat.strongRecOn with
  | ind id ih =>
    have hinputs : (c.inputs id).map (c'.meaning supplied') =
        (c.inputs id).map (c.meaning supplied) :=
      List.map_congr_left fun j hj => h.meaning_eq hsupplied (inputs_lt_size hj)
    rw [Bool.eq_iff_iff, truthful_iff, truthful_iff, h.operator_eq hid, h.inputs_eq hid, hinputs]
    refine and_congr_right fun _ => forall₂_congr fun j hj => ?_
    rw [ih j (c.inputs_lt hj) (inputs_lt_size hj)]

/-! ## Sound plans -/

/-- What soundness asks of a node itself: rows of the right width, and conditions that are predicates
on the rows that may reach them. -/
structure SoundAt (c : Cluster) (supplied : NodeId → List Row) (id : NodeId) : Prop where
  regular : (c.operator id).Regular ((c.inputs id).map c.arity)
  truthful : Meaning.truthful (c.operator id) ((c.inputs id).map (c.meaning supplied)) = true
  supply : (c.operator id).isSubset = true → HaveWidth (c.arity id) (supplied id)

/-- A join over two inputs that returns nothing if one of them, which is not padded, is empty. -/
structure JoinsOver (c : Cluster) (id left right : NodeId) (joinType : JoinType) : Prop where
  operator : ∃ algorithm condition, algorithm ≠ .semi ∧
    c.operator id = .join algorithm joinType condition
  inputs : c.inputs id = [left, right]

/-- The plan under a node is sound: every node is, where its rows can matter. They do not under a join
whose other input has no possible rows, and a condition that was pushed below such a join need not be
a predicate there, since no row of the join was there to ask it of. -/
inductive Sound (c : Cluster) (supplied : NodeId → List Row) : NodeId → Prop
  | node {id : NodeId} (inputs : ∀ j ∈ c.inputs id, Sound c supplied j)
      (own : c.SoundAt supplied id) : Sound c supplied id
  | emptyRight {id left right : NodeId} {joinType : JoinType}
      (join : c.JoinsOver id left right joinType) (pads : joinType.padsRight = false)
      (sound : Sound c supplied right) (empty : (c.meaning supplied right).possible = []) :
      Sound c supplied id
  | emptyLeft {id left right : NodeId} {joinType : JoinType}
      (join : c.JoinsOver id left right joinType) (pads : joinType.padsLeft = false)
      (sound : Sound c supplied left) (empty : (c.meaning supplied left).possible = []) :
      Sound c supplied id

variable {id : NodeId}

/-- All but joins are sound only if their inputs are. -/
theorem Sound.cases_of_not_join (h : c.Sound supplied id) (hjoin : (c.operator id).join? = none) :
    (∀ j ∈ c.inputs id, c.Sound supplied j) ∧ c.SoundAt supplied id := by
  cases h with
  | node inputs own => exact ⟨inputs, own⟩
  | emptyRight join =>
    obtain ⟨algorithm, condition, -, hop⟩ := join.operator
    rw [hop] at hjoin
    cases hjoin
  | emptyLeft join =>
    obtain ⟨algorithm, condition, -, hop⟩ := join.operator
    rw [hop] at hjoin
    cases hjoin

variable (supplied) in
theorem JoinsOver.meaning_eq {left right : NodeId} {joinType : JoinType}
    (h : c.JoinsOver id left right joinType) : ∃ condition,
      c.meaning supplied id =
        ⟨joinOn joinType.padsLeft joinType.padsRight (c.arity left) (c.arity right) (joins condition)
            (c.meaning supplied left).rows (c.meaning supplied right).rows,
          pairs joinType.padsLeft joinType.padsRight (c.arity left) (c.arity right)
            (c.meaning supplied left).possible (c.meaning supplied right).possible⟩ := by
  obtain ⟨algorithm, condition, hsemi, hop⟩ := h.operator
  refine ⟨condition, ?_⟩
  rw [Cluster.meaning_eq, hop, h.inputs]
  cases algorithm with
  | semi => exact absurd rfl hsemi
  | _ => rfl

theorem JoinsOver.meaning_eq_of_emptyRight {left right : NodeId} {joinType : JoinType}
    (h : c.JoinsOver id left right joinType) (hpads : joinType.padsRight = false)
    (hrows : (c.meaning supplied right).rows = [])
    (hempty : (c.meaning supplied right).possible = []) : c.meaning supplied id = ⟨[], []⟩ := by
  obtain ⟨condition, hmeaning⟩ := h.meaning_eq supplied
  rw [hmeaning, hrows, hempty, hpads]
  unfold joinOn pairs
  cases joinType.padsLeft <;> simp

theorem JoinsOver.meaning_eq_of_emptyLeft {left right : NodeId} {joinType : JoinType}
    (h : c.JoinsOver id left right joinType) (hpads : joinType.padsLeft = false)
    (hrows : (c.meaning supplied left).rows = [])
    (hempty : (c.meaning supplied left).possible = []) : c.meaning supplied id = ⟨[], []⟩ := by
  obtain ⟨condition, hmeaning⟩ := h.meaning_eq supplied
  rw [hmeaning, hrows, hempty, hpads]
  unfold joinOn pairs
  cases joinType.padsRight <;> simp

theorem Sound.fits (hid : id < c.size) (h : c.Sound supplied id) :
    Meaning.Fits (c.arity id) (c.meaning supplied id) := by
  induction h with
  | @node id _ own ih =>
    have hinputs : List.Forall₂ (fun (t : RowType) m => Meaning.Fits t.arity m)
        ((c.inputs id).map c.rowType) ((c.inputs id).map (c.meaning supplied)) := by
      exact Outcome.forall₂_map_same.mpr fun j hj => ih j hj (inputs_lt_size hj)
    have hregular := own.regular
    have hsupply := own.supply
    rw [arity_eq hid] at hsupply ⊢
    rw [map_arity_inputs] at hregular
    rw [Cluster.meaning_eq, map_arity_inputs]
    exact Meaning.fits_ofOperator hregular hsupply hinputs
  | @emptyRight id left right joinType join hpads _ hempty ih =>
    have hright : right ∈ c.inputs id := by simp [join.inputs]
    rw [join.meaning_eq_of_emptyRight hpads ((ih (inputs_lt_size hright)).rows_eq_nil hempty) hempty]
    exact ⟨by simp, by simp⟩
  | @emptyLeft id left right joinType join hpads _ hempty ih =>
    have hleft : left ∈ c.inputs id := by simp [join.inputs]
    rw [join.meaning_eq_of_emptyLeft hpads ((ih (inputs_lt_size hleft)).rows_eq_nil hempty) hempty]
    exact ⟨by simp, by simp⟩

/-- A checked plan whose conditions are predicates is sound. -/
theorem sound_of_checked (hid : id < c.size) (hchecked : c.Checked id)
    (htruthful : c.truthful supplied id = true)
    (hsupplied : ∀ i, (c.operator i).isSubset = true → supplied i = [] ∨ c.Delivers i (supplied i)) :
    c.Sound supplied id := by
  -- on the number of the node: its inputs have smaller numbers
  induction id using Nat.strongRecOn with
  | ind id ih =>
    obtain ⟨hown, hinputs⟩ := truthful_iff.mp htruthful
    refine .node (fun j hj => ?_) ⟨hchecked.regular, hown, fun hsub => ?_⟩
    · exact ih j (c.inputs_lt hj) (inputs_lt_size hj) (hchecked.under (.input .root hj))
        (hinputs j hj)
    · rcases hsupplied id hsub with hnil | hdel
      · rw [hnil]
        exact fun row hrow => by cases hrow
      · exact hdel.width hid hchecked

/-- Where the interpreter finds rows, they are those of the meaning. -/
theorem meaning_of_delivers {rows : List Row}
    (hsupplied : ∀ i rows, (c.operator i).isSubset = true → c.Delivers i rows → supplied i = rows)
    (h : c.Delivers id rows) : (c.meaning supplied id).rows = rows.map ofRow := by
  induction h with
  | @node id rows rowsOf _ hown ih =>
    have hrows : ((c.inputs id).map (c.meaning supplied)).mapM Meaning.rows?
        = some ((c.inputs id).map rowsOf) := by
      rw [List.mapM_map]
      exact Outcome.mapM_eq_some_map fun j hj => Meaning.rows?_of_rows_eq (ih j hj)
    have hinput : ∀ i : Nat, (((c.inputs id).map (c.meaning supplied))[i]?.getD default).rows
        = (((c.inputs id).map rowsOf)[i]?.getD []).map ofRow := by
      intro i
      rw [List.getElem?_map, List.getElem?_map]
      cases hi : (c.inputs id)[i]? with
      | none => rfl
      | some j => exact ih j (List.mem_of_getElem? hi)
    have hstrict : ∀ {o : Operator},
        (operatorRows o ((c.inputs id).map c.arity) ((c.inputs id).map rowsOf)).mapError
          PlanError.evaluation = .ok rows →
        (Meaning.strict o ((c.inputs id).map c.arity) ((c.inputs id).map (c.meaning supplied))).rows
          = rows.map ofRow := by
      intro o ho
      unfold Meaning.strict
      rw [hrows]
      dsimp only
      rw [Outcome.mapError_eq_ok.mp ho]
      rfl
    rw [meaning_eq]
    unfold nodeRows at hown
    simp only [Bool.false_and, Bool.false_eq_true, if_false] at hown
    rw [show (c.node id).operator = c.operator id from rfl] at hown
    cases hop : c.operator id with
    | subset rowType =>
      rw [hop] at hown
      cases hown
    | scan convention table =>
      rw [hop] at hown
      simp only [Meaning.ofOperator, Meaning.ofRows]
      rw [show table.scan = .ok rows from hown]
      rfl
    | filter convention condition =>
      rw [hop] at hown
      simp only [Meaning.ofOperator, hinput]
      exact (filterRows_eq_ok (Outcome.mapError_eq_ok.mp hown)).symm
    | project convention columns =>
      rw [hop] at hown
      simp only [Meaning.ofOperator, hinput]
      exact (projectRows_eq_ok (Outcome.mapError_eq_ok.mp hown)).symm
    | join algorithm joinType condition =>
      rw [hop] at hown
      cases algorithm with
      | semi =>
        simp only [Meaning.ofOperator, hinput]
        exact (semiJoinRows_eq_ok (Outcome.mapError_eq_ok.mp hown)).symm
      | _ =>
        simp only [Meaning.ofOperator, hinput]
        exact (joinRows_eq_ok (Outcome.mapError_eq_ok.mp hown)).symm
    | _ =>
      rw [hop] at hown
      exact hstrict hown
  | @member id m rows hsub hchosen hmember _ =>
    have hdel := Delivers.member hsub hchosen hmember
    rw [meaning_eq]
    cases hop : c.operator id with
    | subset rowType =>
      rw [hsupplied id rows hsub hdel]
      rfl
    | _ =>
      rw [hop] at hsub
      cases hsub

end Cluster

end QueryPlan
