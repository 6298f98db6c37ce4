import QueryPlan.Proofs.Execution.Grouping
import QueryPlan.Proofs.Execution.JoinRows
import QueryPlan.Proofs.Expr.Strictness
/-!
# When filters, projections and joins succeed

A filter has rows if its condition has a value on every row of its input, a join if it has one on every
pair of rows, and a projection if all of its expressions do. The rows are then given outright, so that
nothing has to be run to know them.
-/
namespace QueryPlan

open OutcomeRow

namespace Expr

/-- The expression has a value on the row. -/
def HasValue (e : Expr) (row : Row) : Prop := ∃ v, e.eval row = .ok v

/-- The value on a row, null if there is none. -/
def valueOn (row : Row) (e : Expr) : Value := (e.eval row).toOption.getD .null

theorem HasValue.eval_eq {e : Expr} {row : Row} (h : e.HasValue row) :
    e.eval row = .ok (e.valueOn row) := by
  obtain ⟨v, hv⟩ := h
  rw [valueOn, hv]
  rfl

theorem valueOn_column (row : Row) (i : Nat) (t : DataType) :
    (column i t).valueOn row = row.valueAt i := by
  rw [valueOn, eval, Row.valueAt]
  cases row[i]? <;> rfl

/-- A column with a value is one of the row's. -/
theorem HasValue.getElem?_eq {row : Row} {i : Nat} {t : DataType} (h : (column i t).HasValue row) :
    row[i]? = some (row.valueAt i) := by
  obtain ⟨v, hv⟩ := h
  rw [eval] at hv
  rw [Row.valueAt]
  cases hi : row[i]? with
  | none => rw [hi] at hv; cases hv
  | some w => rfl

theorem satisfied_eq_ok_iff {e : Expr} {row : Row} {b : Bool} :
    e.satisfied row = .ok b ↔ e.HasValue row ∧ b = e.holdsOn (ofRow row) := by
  constructor
  · intro h
    refine ⟨?_, (satisfied_eq_ok h).symm⟩
    obtain ⟨v, hv, -⟩ := Outcome.map_eq_ok.mp h
    exact ⟨v, hv⟩
  · rintro ⟨⟨v, hv⟩, rfl⟩
    rw [satisfied, holdsOn, evalOn_ofRow, hv]
    cases v <;> rfl

/-- Where the conjuncts of a condition have truth values, the condition has a value. -/
theorem hasValue_of_conjuncts {e : Expr} {row : Row} (hsplits : e.splitsOn (ofRow row) = true)
    (h : ∀ k ∈ e.conjuncts, k.HasValue row) : e.HasValue row := by
  have heval := allOf_conjuncts hsplits
  rw [evalOn_ofRow] at heval
  unfold HasValue
  rw [← heval]
  rcases Outcome.allOf_cases false (e.conjuncts.map (evalOn (ofRow row))) with hmem | htrue | ⟨hnull, -⟩
  · obtain ⟨k, hk, hvalue⟩ := List.mem_map.mp hmem
    rw [← hvalue, evalOn_ofRow]
    exact h k hk
  · exact ⟨_, htrue⟩
  · exact ⟨_, hnull⟩

end Expr

namespace Execution

/-- A filter has rows if its condition has a value on each row. -/
theorem filterRows_eq_ok_iff {condition : Expr} {rows kept : List Row} :
    filterRows condition rows = .ok kept ↔ (∀ row ∈ rows, condition.HasValue row) ∧
      kept = rows.filter (condition.holdsOn <| ofRow ·) := by
  induction rows generalizing kept with
  | nil =>
    constructor
    · intro h
      cases h
      exact ⟨by simp, rfl⟩
    · rintro ⟨-, rfl⟩
      rfl
  | cons row rows ih =>
    simp only [filterRows, Outcome.bind_eq_ok, Outcome.pure_eq_ok, List.forall_mem_cons,
      List.filter_cons]
    constructor
    · rintro ⟨keep, hkeep, rest, hrest, rfl⟩
      obtain ⟨hvalue, rfl⟩ := Expr.satisfied_eq_ok_iff.mp hkeep
      obtain ⟨hvalues, rfl⟩ := ih.mp hrest
      exact ⟨⟨hvalue, hvalues⟩, rfl⟩
    · rintro ⟨⟨hvalue, hvalues⟩, rfl⟩
      exact ⟨_, Expr.satisfied_eq_ok_iff.mpr ⟨hvalue, rfl⟩, _, ih.mpr ⟨hvalues, rfl⟩, rfl⟩

/-- The row of the values of expressions. -/
def projectedRow (exprs : List Expr) (row : Row) : Row := exprs.map (Expr.valueOn row)

theorem projectRow_eq_ok_iff {exprs : List Expr} {row projected : Row} :
    projectRow exprs row = .ok projected ↔
      (∀ e ∈ exprs, e.HasValue row) ∧ projected = projectedRow exprs row := by
  constructor
  · intro h
    have hforall := Outcome.mapM_eq_ok.mp h
    clear h
    induction hforall with
    | nil => exact ⟨by simp, rfl⟩
    | @cons e v _ _ he _ ih =>
      obtain ⟨hvalues, rfl⟩ := ih
      have hvalue : e.HasValue row := ⟨v, he⟩
      have hv : v = e.valueOn row := by
        rw [hvalue.eval_eq] at he
        cases he
        rfl
      exact ⟨List.forall_mem_cons.mpr ⟨hvalue, hvalues⟩, by rw [hv]; rfl⟩
  · rintro ⟨hvalues, rfl⟩
    exact Outcome.mapM_eq_ok_map fun e he => (hvalues e he).eval_eq

/-- A projection has rows if all of its expressions have a value on each row. -/
theorem projectRows_eq_ok_iff {exprs : List Expr} {rows projected : List Row} :
    rows.mapM (projectRow exprs) = .ok projected ↔
      (∀ row ∈ rows, ∀ e ∈ exprs, e.HasValue row) ∧ projected = rows.map (projectedRow exprs) := by
  constructor
  · intro h
    obtain ⟨f, hf, rfl⟩ := Outcome.exists_map_of_mapM_eq_ok h
    have hrows : ∀ row ∈ rows, (∀ e ∈ exprs, e.HasValue row) ∧ f row = projectedRow exprs row :=
      fun row hrow => projectRow_eq_ok_iff.mp (hf row hrow)
    exact ⟨fun row hrow => (hrows row hrow).1, List.map_congr_left fun row hrow => (hrows row hrow).2⟩
  · rintro ⟨hvalues, rfl⟩
    exact Outcome.mapM_eq_ok_map fun row hrow => projectRow_eq_ok_iff.mpr ⟨hvalues row hrow, rfl⟩

theorem ofRow_projectedRow {exprs : List Expr} {row : Row} (h : ∀ e ∈ exprs, e.HasValue row) :
    ofRow (projectedRow exprs row) = projectOn exprs (ofRow row) :=
  projectRow_eq_ok (projectRow_eq_ok_iff.mpr ⟨h, rfl⟩)

/-- An expression turned through a projection has the outcome that it has on the projected row. -/
theorem eval_throughProjection {projected : List Expr} {e e' : Expr} {row : Row}
    (h : e.throughProjection? projected = some e') (hvalues : ∀ p ∈ projected, p.HasValue row) :
    e'.eval row = e.eval (projectedRow projected row) := by
  rw [← evalOn_ofRow, ← evalOn_ofRow, Expr.evalOn_throughProjection h, ofRow_projectedRow hvalues]
  rfl

/-- A projection on all columns in order leaves a row as it is. -/
theorem projectedRow_identity {exprs : List Expr} {row : Row}
    (hidentity : Expr.areIdentity exprs row.length = true) (h : ∀ e ∈ exprs, e.HasValue row) :
    projectedRow exprs row = row := by
  apply ofRow_injective
  rw [ofRow_projectedRow h]
  exact projectOn_identity (by rw [length_ofRow]; exact hidentity)

theorem projectedRow_columns {row : Row} {columns : List Nat} {exprs : List Expr}
    (h : List.Forall₂ (fun i e => ∃ t, e = .column i t) columns exprs) :
    projectedRow exprs row = row.select columns := by
  induction h with
  | nil => rfl
  | cons hcolumn _ ih =>
    obtain ⟨t, rfl⟩ := hcolumn
    exact List.cons_eq_cons.mpr ⟨Expr.valueOn_column _ _ _, ih⟩

/-- The value of an output column that copies an input column. -/
theorem valueAt_projectedRow {exprs : List Expr} {row : Row} {i k : Nat} {e : Expr}
    (he : exprs[i]? = some e) (hk : e.asColumn? = some k) :
    (projectedRow exprs row).valueAt i = row.valueAt k := by
  obtain ⟨t, rfl⟩ := Expr.asColumn?_eq_some hk
  rw [Row.valueAt, projectedRow, List.getElem?_map, he, Option.map_some, Option.getD_some,
    Expr.valueOn_column]

/-- A join has rows if its condition has a value on each pair of rows. -/
theorem joinRows_eq_ok_iff {joinType : JoinType} {condition : Expr} {leftCount rightCount : Nat}
    {lefts rights rows : List Row} :
    joinRows joinType condition leftCount rightCount lefts rights = .ok rows ↔
      (∀ left ∈ lefts, ∀ right ∈ rights, condition.HasValue (left ++ right)) ∧
        rows = joined joinType condition leftCount rightCount lefts rights := by
  constructor
  · intro h
    refine ⟨fun left hleft right hright => ?_, joinRows_eq_joined h⟩
    obtain ⟨flags, hflags, -⟩ := Outcome.bind_eq_ok.mp h
    obtain ⟨_, -, hrow⟩ := Outcome.exists_right_of_forall₂ (Outcome.mapM_eq_ok.mp hflags) hleft
    obtain ⟨_, -, hflag⟩ := Outcome.exists_right_of_forall₂ (Outcome.mapM_eq_ok.mp hrow) hright
    exact (Expr.satisfied_eq_ok_iff.mp hflag).1
  · rintro ⟨hvalues, rfl⟩
    have hflags : ∀ left ∈ lefts, matchFlags condition rights left =
        .ok (rights.map fun right => condition.holdsOn (ofRow (left ++ right))) := fun left hleft =>
      Outcome.mapM_eq_ok_map fun right hright =>
        Expr.satisfied_eq_ok_iff.mpr ⟨hvalues left hleft right hright, rfl⟩
    obtain ⟨rows, hrows⟩ : ∃ rows,
        joinRows joinType condition leftCount rightCount lefts rights = .ok rows := by
      rw [joinRows, Outcome.mapM_eq_ok_map hflags]
      exact ⟨_, rfl⟩
    rw [hrows, joinRows_eq_joined hrows]

theorem length_projectedRow (exprs : List Expr) (row : Row) :
    (projectedRow exprs row).length = exprs.length := List.length_map _

end Execution

end QueryPlan
