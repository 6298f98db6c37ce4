import QueryPlan.Proofs.Execution.Reading
import QueryPlan.Proofs.Execution.Success
import QueryPlan.Proofs.Expr.Typing
/-!
# Evaluation of expressions whose references are rewritten

An expression goes from one row to another by having its references rewritten: turned through a
projection, shifted behind the columns of another row, or renumbered. On the row that it goes to it
has the outcome that it had before, be that a value or an error. Only the error of a reference that
finds no column is another one, since it tells which column was looked for in how long a row:
`EvalError.renumber` says what it becomes.

Ordinals are machine words. A shift that leads past the last of them starts again at the first
column, so a reference far beyond its row may find one after all (`shift_past_the_last_ordinal`).
-/
namespace QueryPlan

/-- An error on a row of that arity whose columns are looked for at new positions. -/
def EvalError.renumber (position : Nat → Nat) (arity : Nat) : EvalError → EvalError
  | columnOutOfRange i _ => columnOutOfRange (position i) arity
  | e => e

namespace Outcome

/-- The change concerns only the errors for want of a column. -/
def KeepsOthers (f : EvalError → EvalError) : Prop := ∀ e, e.isMissingColumn = false → f e = e

theorem keepsOthers_renumber (position : Nat → Nat) (arity : Nat) :
    KeepsOthers (.renumber position arity) := by
  intro e he
  cases e with
  | columnOutOfRange i n => cases he
  | _ => rfl

section

variable {α β : Type} {f : EvalError → EvalError}

theorem mapError_of_inRange {x : Except EvalError α} (hx : InRange x) (hf : KeepsOthers f) :
    x.mapError f = x := by
  cases x with
  | error e => exact congrArg _ (hf e (hx e rfl))
  | ok a => rfl

theorem map_mapError (x : Except EvalError α) (g : α → β) : g <$> x.mapError f = (g <$> x).mapError f := by
  cases x <;> rfl

/-- A change of errors goes past what is done with a value, if that changes none of its own. -/
theorem bind_mapError {x : Except EvalError α} {k : α → Except EvalError β}
    (hk : ∀ a, (k a).mapError f = k a) : x.mapError f >>= k = (x >>= k).mapError f := by
  cases x with
  | error e => rfl
  | ok a => exact (hk a).symm

theorem allOf_mapError (unknown : Bool) (outcomes : List Outcome) :
    allOf unknown (outcomes.map (Except.mapError f)) = (allOf unknown outcomes).mapError f := by
  induction outcomes generalizing unknown with
  | nil => rfl
  | cons o os ih =>
    rcases o with e | v
    · rfl
    · cases v with
      | boolean b =>
        cases b with
        | false => rfl
        | true => exact ih unknown
      | null => exact ih true
      | _ => exact ih unknown

theorem anyOf_mapError (unknown : Bool) (outcomes : List Outcome) :
    anyOf unknown (outcomes.map (Except.mapError f)) = (anyOf unknown outcomes).mapError f := by
  induction outcomes generalizing unknown with
  | nil => rfl
  | cons o os ih =>
    rcases o with e | v
    · rfl
    · cases v with
      | boolean b =>
        cases b with
        | false => exact ih unknown
        | true => rfl
      | null => exact ih true
      | _ => exact ih unknown

theorem operand_mapError (hf : KeepsOthers f) (outcomes : List Outcome) (position : Nat) :
    operand (outcomes.map (Except.mapError f)) position = (operand outcomes position).mapError f := by
  rw [operand, operand, List.getElem?_map]
  cases outcomes[position]? with
  | none => exact congrArg Except.error (hf .missingOperand rfl).symm
  | some o => rfl

end

end Outcome

/-- A call passes on the errors of its operands, and its own are none for want of a column. -/
theorem Op.combine_mapError {f : EvalError → EvalError} (hf : Outcome.KeepsOthers f) (op : Op)
    (target : DataType) (outcomes : List Outcome) :
    op.combine target (outcomes.map (Except.mapError f)) =
      (op.combine target outcomes).mapError f := by
  have hoperand := Outcome.operand_mapError hf outcomes
  have hbinary (g : Value → Value → Outcome) (hg : ∀ v w, Outcome.InRange (g v w)) :
      (do
        let v ← Outcome.operand (outcomes.map (Except.mapError f)) 0
        let w ← Outcome.operand (outcomes.map (Except.mapError f)) 1
        g v w) =
      Except.mapError f (do
        let v ← Outcome.operand outcomes 0
        let w ← Outcome.operand outcomes 1
        g v w) := by
    rw [hoperand, hoperand]
    cases Outcome.operand outcomes 0 with
    | error e => rfl
    | ok v => exact Outcome.bind_mapError fun w => Outcome.mapError_of_inRange (hg v w) hf
  cases op with
  | and => exact Outcome.allOf_mapError false outcomes
  | or => exact Outcome.anyOf_mapError false outcomes
  | not | isNull | isNotNull | unaryMinus | floor | ceil =>
    exact (congrArg _ (hoperand 0)).trans (Outcome.map_mapError _ _)
  | cast =>
    exact (congrArg (· >>= Value.convert target) (hoperand 0)).trans
      (Outcome.bind_mapError fun v => Outcome.mapError_of_inRange (v.inRange_convert target) hf)
  | plus | minus | times | divide => exact hbinary _ (Value.inRange_arithmetic _)
  | equals | notEquals | lessThan | lessThanOrEqual | greaterThan | greaterThanOrEqual =>
    exact hbinary _ fun v w => Outcome.inRange_ok _

namespace Expr

variable {e e' : Expr} {row row' : Row}

/-- An expression over other columns, on a row that has there what the first row has, or nothing
where that has nothing. -/
theorem eval_mapColumns_column {g : Nat → Nat} (h : ∀ i ∈ e.columnList, row'[g i]? = row[i]?) :
    (e.mapColumns fun i t => column (g i) t).eval row' =
      (e.eval row).mapError (.renumber g row'.length) := by
  induction e using induct with
  | column i t =>
    rw [mapColumns, eval, eval, h i List.mem_cons_self]
    cases row[i]? <;> rfl
  | literal v => rfl
  | apply op es t ih =>
    have hoperands : ∀ e ∈ es, (e.mapColumns fun i t => column (g i) t).eval row' =
        (e.eval row).mapError (.renumber g row'.length) := fun e he =>
      ih e he fun i hi => h i (mem_columnList_apply.mpr ⟨e, he, hi⟩)
    rw [mapColumns, mapColumnsEach_eq, eval, eval, evalEach_eq, evalEach_eq, List.map_map,
      ← Op.combine_mapError (Outcome.keepsOthers_renumber g row'.length), List.map_map]
    congr 1
    exact List.map_congr_left hoperands
  | tableColumn r i t => rfl

/-! ## Expressions behind other columns -/

theorem eval_shift {before : Row} (h : ∀ i ∈ e.columnList, before.length + i < UInt64.size) :
    (e.shift before.length).eval (before ++ row) =
      (e.eval row).mapError (.renumber (before.length + ·) (before ++ row).length) := by
  have hshift : e.shift before.length = e.mapColumns fun i t => column (before.length + i) t := by
    refine mapColumns_congr fun i hi t => ?_
    have hword := h i hi
    rw [shiftOrdinal_of_lt (by omega) (by omega)]
    congr 1
    omega
  rw [hshift]
  refine eval_mapColumns_column fun i _ => ?_
  rw [List.getElem?_append_right (Nat.le_add_right _ _), Nat.add_sub_cancel_left]

/-! ## Expressions with new references -/

theorem renumber?_eq_none_iff {position : Nat → Option Nat} :
    e.renumber? position = none ↔ ∃ i ∈ e.columnList, position i = none := by
  constructor
  · intro h
    by_contra hmapped
    push Not at hmapped
    obtain ⟨e', he'⟩ : ∃ e', e.renumber? position = some e' := by
      refine mapColumns?_succeeds fun i hi t => ?_
      obtain ⟨j, hj⟩ := Option.ne_none_iff_exists'.mp (hmapped i hi)
      exact ⟨column j t, by rw [hj]; rfl⟩
    rw [h] at he'
    cases he'
  · rintro ⟨i, hi, hnone⟩
    cases h : e.renumber? position with
    | none => rfl
    | some e' =>
      obtain ⟨t, p, hp⟩ := (mapColumns?_eq_some h).2 i hi
      rw [hnone] at hp
      cases hp

theorem eval_renumber? {position : Nat → Option Nat} (h : e.renumber? position = some e')
    (hrows : ∀ i ∈ e.columnList, ∀ j, position i = some j → row'[j]? = row[i]?) :
    e'.eval row' =
      (e.eval row).mapError (.renumber (fun i => (position i).getD i) row'.length) := by
  obtain ⟨hmap, hmapped⟩ := mapColumns?_eq_some h
  rw [← hmap]
  have hcolumns : (e.mapColumns fun i t => ((position i).map (column · t)).getD (column i t)) =
      e.mapColumns fun i t => column ((position i).getD i) t :=
    mapColumns_congr fun i _ t => by cases position i <;> rfl
  rw [hcolumns]
  refine eval_mapColumns_column fun i hi => ?_
  obtain ⟨t, p, hp⟩ := hmapped i hi
  obtain ⟨j, hj, -⟩ := Option.map_eq_some_iff.mp hp
  rw [hj, Option.getD_some]
  exact hrows i hi j hj

/-- Rewriting references commutes with evaluation. An expression turned through a projection has the
outcome that it has on the projected row. Shifted behind other columns it has the outcome that it has
without them, and renumbered, which it can be if all of its references have new numbers, the outcome
that it has on any row with the same columns. Where a reference finds no column, the error names the
new reference and the arity of the new row, as long as what is shifted stays a machine word. -/
theorem rewriting_commutes_with_eval (e : Expr) (row : Row) :
    (∀ projected values, List.Forall₂ (fun p v => p.eval row = .ok v) projected values →
      (∀ i ∈ e.columnList, i < projected.length) →
      ∃ e', e.throughProjection? projected = some e' ∧ e'.eval row = e.eval values) ∧
    (∀ before : Row,
      (before.length + row.length ≤ UInt64.size → (∀ i ∈ e.columnList, i < row.length) →
        (e.shift before.length).eval (before ++ row) = e.eval row) ∧
      ((∀ i ∈ e.columnList, before.length + i < UInt64.size) →
        (e.shift before.length).eval (before ++ row) =
          (e.eval row).mapError (.renumber (before.length + ·) (before ++ row).length))) ∧
    ∀ position : Nat → Option Nat,
      (e.renumber? position = none ↔ ∃ i ∈ e.columnList, position i = none) ∧
      ∀ e' row', e.renumber? position = some e' →
        (∀ i ∈ e.columnList, ∀ j, position i = some j → row'[j]? = row[i]?) →
        ((∀ i ∈ e.columnList, i < row.length) → e'.eval row' = e.eval row) ∧
          e'.eval row' =
            (e.eval row).mapError (.renumber (fun i => (position i).getD i) row'.length) := by
  have hkept {g : Nat → Nat} {arity : Nat} (h : ∀ i ∈ e.columnList, i < row.length) :
      (e.eval row).mapError (.renumber g arity) = e.eval row :=
    Outcome.mapError_of_inRange (inRange_eval h) (Outcome.keepsOthers_renumber g arity)
  refine ⟨fun projected values hvalues hbelow => ?_, fun before => ⟨fun hwords hbelow => ?_, ?_⟩,
    fun position => ⟨renumber?_eq_none_iff, fun e' row' hrenumbered hrows => ?_⟩⟩
  · obtain ⟨e', he'⟩ : ∃ e', e.throughProjection? projected = some e' :=
      mapColumns?_succeeds fun i hi t => ⟨_, List.getElem?_eq_getElem (hbelow i hi)⟩
    obtain ⟨hhave, rfl⟩ := Execution.projectRow_eq_ok_iff.mp (Outcome.mapM_eq_ok.mpr hvalues)
    exact ⟨e', he', Execution.eval_throughProjection he' hhave⟩
  · rw [eval_shift fun i hi => by have := hbelow i hi; omega, hkept hbelow]
  · exact eval_shift
  · have heval := eval_renumber? hrenumbered hrows
    exact ⟨fun hbelow => heval.trans (hkept hbelow), heval⟩

/-- Loans of more than 30 days whose reader is known, over their days and readers. -/
def lateLoan : Expr :=
  call .and [call .greaterThan [column 0 .bigint, literal (.integer 30)],
    call .isNotNull [column 1 .varchar]]

theorem rewriting_commutes_with_eval_lateLoan :
    (∃ e', lateLoan.throughProjection? [column 1 .bigint, column 2 .varchar] = some e' ∧
      e'.eval [.varchar "Emma", .integer 40, .varchar "Ada"] = .ok (.boolean true)) ∧
    (lateLoan.shift 1).eval [.varchar "Emma", .integer 40, .varchar "Ada"] = .ok (.boolean true) ∧
    (lateLoan.shift 1).eval [.varchar "Emma"] = .error (.columnOutOfRange 1 1) ∧
    ∃ e', lateLoan.renumber? ([1, 0][·]?) = some e' ∧
      e'.eval [.varchar "Ada", .integer 40] = .ok (.boolean true) := by
  have hlate : lateLoan.eval [.integer 40, .varchar "Ada"] = .ok (.boolean true) := rfl
  have hnone : lateLoan.eval [] = .error (.columnOutOfRange 0 0) := rfl
  obtain ⟨e', he', heval⟩ := (rewriting_commutes_with_eval lateLoan
    [.varchar "Emma", .integer 40, .varchar "Ada"]).1 [column 1 .bigint, column 2 .varchar]
    [.integer 40, .varchar "Ada"] (.cons rfl (.cons rfl .nil)) (by decide)
  obtain ⟨-, hshift, hrenumber⟩ :=
    rewriting_commutes_with_eval lateLoan [.integer 40, .varchar "Ada"]
  have hshiftNone := (rewriting_commutes_with_eval lateLoan []).2.1 [.varchar "Emma"]
  refine ⟨⟨e', he', heval.trans hlate⟩, ?_, ?_, ?_⟩
  · exact ((hshift [.varchar "Emma"]).1 (by decide) (by decide)).trans hlate
  · exact (hshiftNone.2 (by decide)).trans (by rw [hnone]; rfl)
  · refine ⟨_, rfl, (((hrenumber ([1, 0][·]?)).2 _ _ rfl fun i hi j hj => ?_).1
      (by decide)).trans hlate⟩
    have hi : i ∈ [0, 1] := hi
    obtain rfl | rfl : i = 0 ∨ i = 1 := by simpa using hi
    all_goals
      cases hj
      rfl

/-- The reference at the last ordinal finds no column, but shifted by one it is the first column of
the row in front. A reference just beyond its row stays beyond it, with an error of its own. -/
theorem shift_past_the_last_ordinal :
    ((column 18446744073709551615 .bigint).eval [.integer 8] =
        .error (.columnOutOfRange 18446744073709551615 1) ∧
      ((column 18446744073709551615 .bigint).shift ([.integer 7] : Row).length).eval
        ([.integer 7] ++ [.integer 8]) = .ok (.integer 7)) ∧
    (column 1 .bigint).eval [.integer 8] = .error (.columnOutOfRange 1 1) ∧
    ((column 1 .bigint).shift ([.integer 7] : Row).length).eval ([.integer 7] ++ [.integer 8]) =
      .error (.columnOutOfRange 2 2) :=
  ⟨⟨rfl, rfl⟩, rfl, rfl⟩

end Expr

end QueryPlan
