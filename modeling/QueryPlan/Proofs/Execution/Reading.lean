import QueryPlan.Proofs.Execution.Width
import QueryPlan.Proofs.Expr.Conjunction
import QueryPlan.Proofs.Expr.Substitution
import QueryPlan.Proofs.Session.Walks
/-!
# No operator reads a column that its rows do not have

An operator that passes its check reads columns below the arities of its inputs only: keys of
orders, group columns, arguments of calls and the columns of its expressions. So on rows of the
declared width it can fail for other reasons, but never for want of a column. `Outcome.InRange` says
so of one computation.
-/
namespace QueryPlan

/-- The failure is a read of a column that the row does not have. -/
def EvalError.isMissingColumn : EvalError → Bool
  | columnOutOfRange _ _ | missingColumn => true
  | _ => false

namespace Outcome

/-- The computation does not fail for want of a column. -/
def InRange {α : Type} (x : Except EvalError α) : Prop :=
  ∀ e, x = .error e → e.isMissingColumn = false

variable {α β : Type}

theorem inRange_ok (a : α) : InRange (.ok a) := fun _ h => by cases h

theorem inRange_error {e : EvalError} (h : e.isMissingColumn = false) :
    InRange (.error e : Except EvalError α) := fun _ he => by cases he; exact h

theorem InRange.bind {x : Except EvalError α} {f : α → Except EvalError β} (hx : InRange x)
    (hf : ∀ a, x = .ok a → InRange (f a)) : InRange (x >>= f) := by
  cases x with
  | error e => exact inRange_error (hx e rfl)
  | ok a => exact hf a rfl

theorem InRange.map {x : Except EvalError α} (hx : InRange x) (f : α → β) : InRange (f <$> x) := by
  cases x with
  | error e => exact inRange_error (hx e rfl)
  | ok a => exact inRange_ok (f a)

theorem inRange_mapM {f : α → Except EvalError β} {as : List α} (h : ∀ a ∈ as, InRange (f a)) :
    InRange (as.mapM f) := by
  induction as with
  | nil => exact inRange_ok []
  | cons a as ih =>
    obtain ⟨ha, has⟩ := List.forall_mem_cons.mp h
    rw [List.mapM_cons]
    exact ha.bind fun b _ => (ih has).bind fun bs _ => inRange_ok (b :: bs)

theorem inRange_foldlM {f : β → α → Except EvalError β} {as : List α}
    (h : ∀ a ∈ as, ∀ b, InRange (f b a)) (b : β) : InRange (as.foldlM f b) := by
  induction as generalizing b with
  | nil => exact inRange_ok b
  | cons a as ih =>
    obtain ⟨ha, has⟩ := List.forall_mem_cons.mp h
    rw [List.foldlM_cons]
    exact (ha b).bind fun b' _ => ih has b'

theorem inRange_allOf (unknown : Bool) {outcomes : List Outcome} (h : ∀ o ∈ outcomes, InRange o) :
    InRange (allOf unknown outcomes) := by
  rcases allOf_cases unknown outcomes with hmem | heq | ⟨heq, -⟩
  · exact h _ hmem
  all_goals rw [heq]; exact inRange_ok _

theorem inRange_anyOf (unknown : Bool) {outcomes : List Outcome} (h : ∀ o ∈ outcomes, InRange o) :
    InRange (anyOf unknown outcomes) := by
  rcases anyOf_cases unknown outcomes with hmem | heq | ⟨heq, -⟩
  · exact h _ hmem
  all_goals rw [heq]; exact inRange_ok _

theorem inRange_operand {outcomes : List Outcome} (h : ∀ o ∈ outcomes, InRange o) (i : Nat) :
    InRange (operand outcomes i) := by
  unfold operand
  cases hi : outcomes[i]? with
  | none => exact inRange_error rfl
  | some o => exact h o (List.mem_of_getElem? hi)

end Outcome

open Outcome

/-! ## Expressions -/

theorem Value.inRange_convert (target : DataType) (v : Value) : InRange (v.convert target) := by
  intro e h
  unfold convert at h
  repeat' split at h
  all_goals first | cases h; rfl | cases h

theorem Value.inRange_arithmetic (op : Op) (v w : Value) : InRange (arithmetic op v w) := by
  intro e h
  unfold arithmetic integerArithmetic at h
  repeat' split at h
  all_goals first | cases h; rfl | cases h

/-- A call fails for want of a column only if one of its operands does. -/
theorem Op.inRange_combine (op : Op) (target : DataType) {outcomes : List Outcome}
    (h : ∀ o ∈ outcomes, InRange o) : InRange (op.combine target outcomes) := by
  have first := inRange_operand h 0
  have second := inRange_operand h 1
  cases op with
  | and => exact inRange_allOf false h
  | or => exact inRange_anyOf false h
  | not | isNull | isNotNull | unaryMinus | floor | ceil => exact first.map _
  | cast => exact first.bind fun v _ => v.inRange_convert target
  | plus | minus | times | divide =>
    exact first.bind fun v _ => second.bind fun w _ => Value.inRange_arithmetic _ v w
  | equals | notEquals | lessThan | lessThanOrEqual | greaterThan | greaterThanOrEqual =>
    exact first.bind fun v _ => second.bind fun w _ => inRange_ok _

namespace Expr

/-- An expression finds the columns that it reads. -/
theorem inRange_eval {e : Expr} {row : Row} (h : ∀ i ∈ e.columnList, i < row.length) :
    InRange (e.eval row) := by
  induction e using induct with
  | column i t =>
    have hi : i < row.length := h i List.mem_cons_self
    rw [eval, List.getElem?_eq_getElem hi]
    exact inRange_ok _
  | literal v => exact inRange_ok v
  | apply op es t ih =>
    rw [eval, evalEach_eq]
    apply Op.inRange_combine
    intro o ho
    obtain ⟨e, he, rfl⟩ := List.mem_map.mp ho
    exact ih e he fun i hi => h i (mem_columnList_apply.mpr ⟨e, he, hi⟩)
  | tableColumn r i t => exact inRange_error rfl

theorem inRange_satisfied {e : Expr} {row : Row} (h : ∀ i ∈ e.columnList, i < row.length) :
    InRange (e.satisfied row) := (inRange_eval h).map _

end Expr

/-! ## Rows of operators -/

namespace Execution

variable {condition : Expr}

theorem inRange_filterRows {rows : List Row}
    (h : ∀ row ∈ rows, ∀ i ∈ condition.columnList, i < row.length) :
    InRange (filterRows condition rows) := by
  induction rows with
  | nil => exact inRange_ok []
  | cons row rows ih =>
    obtain ⟨hrow, hrows⟩ := List.forall_mem_cons.mp h
    exact (Expr.inRange_satisfied hrow).bind fun keep _ =>
      (ih hrows).bind fun rest _ => inRange_ok _

/-- The condition of a join finds its columns on any two rows that are put together. -/
abbrev Spans (condition : Expr) (lefts rights : List Row) : Prop :=
  ∀ left ∈ lefts, ∀ right ∈ rights, ∀ i ∈ condition.columnList, i < (left ++ right).length

theorem spans_of_haveWidth {m n : Nat} {lefts rights : List Row} (hlefts : HaveWidth m lefts)
    (hrights : HaveWidth n rights) (h : ∀ i ∈ condition.columnList, i < m + n) :
    Spans condition lefts rights := by
  intro left hl right hr i hi
  rw [List.length_append, hlefts left hl, hrights right hr]
  exact h i hi

theorem inRange_joinRows {joinType : JoinType} {m n : Nat} {lefts rights : List Row}
    (h : Spans condition lefts rights) :
    InRange (joinRows joinType condition m n lefts rights) := by
  have hflags : InRange (lefts.mapM (matchFlags condition rights)) :=
    inRange_mapM fun left hl => inRange_mapM fun right hr =>
      Expr.inRange_satisfied (h left hl right hr)
  exact hflags.bind fun flags _ => inRange_ok _

theorem inRange_hasMatch {left : Row} {rights : List Row}
    (h : ∀ right ∈ rights, ∀ i ∈ condition.columnList, i < (left ++ right).length) :
    InRange (hasMatch condition left rights) := by
  induction rights with
  | nil => exact inRange_ok false
  | cons right rights ih =>
    obtain ⟨hright, hrights⟩ := List.forall_mem_cons.mp h
    refine (Expr.inRange_satisfied hright).bind fun hit _ => ?_
    cases hit with
    | true => exact inRange_ok true
    | false => exact ih hrights

theorem inRange_semiJoinRows {lefts rights : List Row} (h : Spans condition lefts rights) :
    InRange (semiJoinRows condition rights lefts) := by
  induction lefts with
  | nil => exact inRange_ok []
  | cons left lefts ih =>
    obtain ⟨hleft, hlefts⟩ := List.forall_mem_cons.mp h
    exact (inRange_hasMatch hleft).bind fun hit _ =>
      (ih hlefts).bind fun rest _ => inRange_ok _

theorem inRange_sortRows {collation : Collation} {offset : Nat} {fetch : Option Nat}
    {rows : List Row} (h : ∀ row ∈ rows, ∀ k ∈ collation.keys, k < row.length) :
    InRange (sortRows collation offset fetch rows) := by
  have hreads : rows.all collation.reads = true := by
    simpa [Collation.reads] using h
  have hsorted : collation.sort? rows = .ok (collation.sort rows) :=
    if_pos (by rw [hreads, Bool.true_or])
  rw [sortRows, hsorted]
  split
  · exact inRange_ok _
  · exact inRange_ok _

/-! ### Groups -/

theorem inRange_columnValue {row : Row} {i : Nat} (h : i < row.length) :
    InRange (columnValue row i) := by
  rw [columnValue, List.getElem?_eq_getElem h]
  exact inRange_ok _

theorem inRange_addValues (v w : Value) : InRange (AggFunction.addValues v w) := by
  intro e h
  unfold AggFunction.addValues at h
  dsimp only at h
  repeat' split at h
  all_goals first | cases h; rfl | cases h

theorem inRange_step (f : AggFunction) (acc : Option Value) (v : Value) :
    InRange (f.step acc v) := by
  unfold AggFunction.step AggFunction.accumulate
  repeat' split
  all_goals first | exact inRange_ok _ | exact (inRange_addValues _ v).map _

/-- The calls find their arguments on the row. -/
abbrev Feeds (row : Row) (calls : List AggregateCall) : Prop :=
  ∀ call ∈ calls, ∀ a ∈ call.args, a < row.length

theorem inRange_addRow {row : Row} {calls : List AggregateCall} (h : Feeds row calls)
    (accs : List (Option Value)) : InRange (addRow row calls accs) := by
  induction calls generalizing accs with
  | nil => exact inRange_ok []
  | cons call calls ih =>
    cases accs with
    | nil => exact inRange_ok []
    | cons acc accs =>
      obtain ⟨hcall, hcalls⟩ := List.forall_mem_cons.mp h
      have hargument : InRange (argumentValue call row) := by
        unfold argumentValue
        split
        · exact inRange_ok _
        · next a rest hargs => exact inRange_columnValue (hcall a (by simp [hargs]))
      exact hargument.bind fun v _ => (inRange_step _ acc v).bind fun acc' _ =>
        (ih hcalls accs).bind fun rest _ => inRange_ok _

theorem inRange_addToGroups {calls : List AggregateCall} {key row : Row} (h : Feeds row calls)
    (groups : List (Row × List (Option Value))) : InRange (addToGroups calls key row groups) := by
  induction groups with
  | nil => exact (inRange_addRow h _).bind fun accs _ => inRange_ok _
  | cons group groups ih =>
    rw [addToGroups]
    cases key.order group.1 with
    | lt => exact (inRange_addRow h _).bind fun accs _ => inRange_ok _
    | eq => exact (inRange_addRow h _).bind fun accs _ => inRange_ok _
    | gt => exact ih.bind fun rest _ => inRange_ok _

theorem inRange_aggregateRows {group : ColumnSet} {calls : List AggregateCall} {rows : List Row}
    (hgroup : ∀ row ∈ rows, ∀ g ∈ group.toList, g < row.length)
    (hcalls : ∀ row ∈ rows, Feeds row calls) : InRange (aggregateRows group calls rows) := by
  have hgroups : InRange (groupRows group calls rows) := by
    apply inRange_foldlM
    intro row hrow groups
    have hkey : InRange (groupKey group row) :=
      inRange_mapM fun g hg => inRange_columnValue (hgroup row hrow g hg)
    exact hkey.bind fun key _ => inRange_addToGroups (hcalls row hrow) groups
  exact hgroups.bind fun groups _ => inRange_ok _

theorem lt_of_checkCall {arity : Nat} {call : AggregateCall}
    (h : Operator.checkCall arity call = .ok ()) : ∀ a ∈ call.args, a < arity := by
  intro a ha
  unfold Operator.checkCall at h
  split at h
  · cases h
  · next hnone =>
    have := List.any_eq_false.mp (Bool.eq_false_iff.mpr hnone) a ha
    simpa using this

/-- An operator that passes its check finds every column that it reads, on rows as wide as their row
types. -/
theorem inRange_operatorRows {o : Operator} {types : List RowType} {inputs : List (List Row)}
    (hcheck : o.check types = .ok ()) (hinputs : InputsHaveWidth types inputs)
    (arities : List Nat) :
    InRange (operatorRows o arities inputs) := by
  have first := hinputs.getElem? 0
  have second := hinputs.getElem? 1
  unfold operatorRows
  cases o with
  | scan | subset | values | correlate | union | intersect | minus | exchange => exact inRange_ok _
  | filter convention condition =>
    simp only [Operator.check] at hcheck
    split at hcheck
    · apply inRange_filterRows
      intro row hrow i hi
      rw [first row hrow]
      exact Expr.lt_of_checkColumns hcheck i hi
    · apply inRange_filterRows
      intro row hrow i hi
      rw [first row hrow]
      exact Expr.lt_of_checkColumns hcheck i hi
    · cases hcheck
  | project convention columns =>
    apply inRange_mapM
    intro row hrow
    apply inRange_mapM
    intro e he
    obtain ⟨column, hcolumn, rfl⟩ := List.mem_map.mp he
    apply Expr.inRange_eval
    rw [first row hrow]
    exact Expr.lt_of_checkColumns (Outcome.forM_eq_ok.mp hcheck column hcolumn)
  | join algorithm joinType condition =>
    have hspans : Spans condition _ _ :=
      spans_of_haveWidth first second (Expr.lt_of_checkColumns hcheck)
    cases algorithm with
    | semi => exact inRange_semiJoinRows hspans
    | _ => exact inRange_joinRows hspans
  | aggregate convention group calls =>
    simp only [Operator.check, Outcome.bind_eq_ok] at hcheck
    obtain ⟨u, hgroup, hcalls⟩ := hcheck
    apply inRange_aggregateRows
    · intro row hrow
      rw [first row hrow]
      exact Operator.lt_of_checkOrdinals hgroup
    · intro row hrow call hcall
      rw [first row hrow]
      exact lt_of_checkCall (Outcome.forM_eq_ok.mp hcalls call hcall)
  | sort convention collation offset fetch =>
    apply inRange_sortRows
    intro row hrow
    rw [first row hrow]
    exact Operator.lt_of_checkOrdinals hcheck
  | sortExchange distribution collation =>
    simp only [Operator.check, Outcome.bind_eq_ok] at hcheck
    obtain ⟨u, -, hkeys⟩ := hcheck
    apply inRange_sortRows
    intro row hrow
    rw [first row hrow]
    exact Operator.lt_of_checkOrdinals hkeys

end Execution

/-! ## Plans -/

namespace Cluster

variable {c : Cluster} {cancelled : Bool} {id root : NodeId} {e : EvalError}

/-- A node that passes its check fails for want of a column only where it scans a table whose rows
cannot be read for that. -/
theorem nodeRows_inRange {inputs : List (List Row)} (hcheck : c.check id = .ok ())
    (hinputs : Execution.InputsHaveWidth ((c.inputs id).map c.rowType) inputs)
    (h : c.nodeRows cancelled id inputs = .error (.evaluation e))
    (hmissing : e.isMissingColumn = true) :
    ∃ t, (c.operator id).table? = some t ∧ t.source = some (.error (.evaluation e)) := by
  have hrange (arities : List Nat) :
      ¬(Execution.operatorRows (c.operator id) arities inputs).mapError PlanError.evaluation =
        .error (.evaluation e) := by
    have hin := Execution.inRange_operatorRows (Outcome.mapError_eq_ok.mp hcheck) hinputs arities
    intro herror
    cases hrows : Execution.operatorRows (c.operator id) arities inputs with
    | ok rows =>
      rw [hrows] at herror
      cases herror
    | error e' =>
      rw [hrows] at herror
      cases herror
      rw [hin e hrows] at hmissing
      cases hmissing
  unfold nodeRows at h
  dsimp only at h
  split at h
  · cases h
  · cases hop : c.operator id with
    | scan convention table =>
      rw [show (c.node id).operator = _ from hop] at h
      exact ⟨table, rfl, Table.source_of_scan h (by nofun)⟩
    | subset rowType =>
      rw [show (c.node id).operator = _ from hop] at h
      cases h
    | _ =>
      rw [show (c.node id).operator = _ from hop] at h
      rw [hop] at hrange
      exact absurd h (hrange _)

/-- A plan whose nodes pass their checks and have rows of the declared widths reads no column that
is not there. -/
theorem evaluate_inRange (hcheck : ∀ i, c.InPlan root i → c.check i = .ok ())
    (hwidth : ∀ i, c.InPlan root i → ∀ rows, c.evaluate cancelled i = .ok rows →
      HaveWidth (c.arity i) rows)
    (hid : c.InPlan root id) (h : c.evaluate cancelled id = .error (.evaluation e))
    (hmissing : e.isMissingColumn = true) :
    ∃ i t, c.InPlan id i ∧ (c.operator i).table? = some t ∧
      t.source = some (.error (.evaluation e)) := by
  -- on the number of the node: its inputs have smaller numbers
  induction id using Nat.strongRecOn with
  | ind id ih =>
    rw [evaluate_eq, Outcome.bind_eq_error] at h
    rcases h with h | ⟨inputs, hinputs, h⟩
    · obtain ⟨j, hj, hfails⟩ := Outcome.exists_mem_of_mapM_eq_error h
      obtain ⟨i, t, hi, ht⟩ := ih j (c.inputs_lt hj) (.input hid hj) hfails
      exact ⟨i, t, InPlan.trans (.input .root hj) hi, ht⟩
    · obtain ⟨rowsOf, hrowsOf, rfl⟩ := Outcome.exists_map_of_mapM_eq_ok hinputs
      have hwidths : Execution.InputsHaveWidth ((c.inputs id).map c.rowType)
          ((c.inputs id).map rowsOf) := by
        exact Outcome.forall₂_map_same.mpr fun j hj => hwidth j (.input hid hj) _ (hrowsOf j hj)
      obtain ⟨t, ht⟩ := nodeRows_inRange (hcheck id hid) hwidths h hmissing
      exact ⟨id, t, .root, ht⟩

end Cluster

end QueryPlan
