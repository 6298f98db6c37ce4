import QueryPlan.Proofs.Execution.Stripping
import QueryPlan.Proofs.Execution.Success
import QueryPlan.Proofs.Rule.Shapes
/-!
# Errors of merged filters

A filter drops a row of which its condition is unknown, so that a filter above it never sees the row. A
conjunction reads on behind an unknown operand and ends at FALSE only. So one filter on both conditions
evaluates the upper one on rows that two filters keep from it, and fails where it fails there; a literal
FALSE among the conjuncts is all that keeps it from reading the row at all.
-/
namespace QueryPlan

open OutcomeRow Execution

namespace Outcome

/-- The operands of a conjunction that are read: the second one unless the first is FALSE. -/
theorem exists_value_allOf_pair (o o' : Outcome) : (∃ v, allOf false [o, o'] = .ok v) ↔
    (∃ v, o = .ok v) ∧ (o ≠ .ok (.boolean false) → ∃ v, o' = .ok v) := by
  have hlast : ∀ unknown, (∃ v, allOf unknown [o'] = .ok v) ↔ ∃ v, o' = .ok v := by
    intro unknown
    rw [allOf_cons]
    rcases o' with e | v
    · simp [andThen]
    · cases v with
      | boolean b => cases b <;> simp [andThen, allOf]
      | _ => simp [andThen, allOf]
  rw [allOf_cons]
  rcases o with e | v
  · simp [andThen]
  · cases v with
    | boolean b =>
      cases b with
      | false => simp [andThen]
      | true => simpa [andThen] using hlast false
    | null => simpa [andThen] using hlast true
    | _ => simpa [andThen] using hlast false

end Outcome

namespace Expr

variable {lower upper : Expr} {row : Row}

/-- The condition of two filters reads the upper one on a row unless the lower one is FALSE there. -/
theorem hasValue_conjunction_iff (hlower : lower.splitsOn (ofRow row) = true)
    (hupper : upper.splitsOn (ofRow row) = true) : (conjunction [lower, upper]).HasValue row ↔
      (conjunctsOf [lower, upper]).any isAlwaysFalse = true ∨
        lower.HasValue row ∧ (lower.eval row ≠ .ok (.boolean false) → upper.HasValue row) := by
  have hparts : ∀ p ∈ [lower, upper], p.splitsOn (ofRow row) = true :=
    List.forall_mem_cons.mpr ⟨hlower, List.forall_mem_singleton.mpr hupper⟩
  have heval := evalOn_conjunction hparts
  simp only [evalOn_ofRow, List.map_cons, List.map_nil] at heval
  unfold HasValue
  rw [heval]
  split
  · next hfalse => simp [hfalse]
  · next hread => rw [Outcome.exists_value_allOf_pair, or_iff_right hread]

end Expr

/-- What two filters leave, one filter on both conditions leaves as well, unless it fails: that is where
the upper condition has no value on a row of which the lower one is unknown, and no conjunct is the
literal FALSE. -/
theorem Execution.filterRows_conjunction_iff {lower upper : Expr} {rows kept result found : List Row}
    (hsplits : ∀ row ∈ rows,
      lower.splitsOn (ofRow row) = true ∧ upper.splitsOn (ofRow row) = true)
    (hlower : filterRows lower rows = .ok kept) (hupper : filterRows upper kept = .ok result) :
    filterRows (Expr.conjunction [lower, upper]) rows = .ok found ↔
      found = result ∧ ((Expr.conjunctsOf [lower, upper]).any Expr.isAlwaysFalse = true ∨
        ∀ row ∈ rows, lower.eval row = .ok .null → upper.HasValue row) := by
  obtain ⟨hlowerValues, rfl⟩ := filterRows_eq_ok_iff.mp hlower
  obtain ⟨hupperValues, rfl⟩ := filterRows_eq_ok_iff.mp hupper
  have hholds : rows.filter ((Expr.conjunction [lower, upper]).holdsOn <| ofRow ·) =
      (rows.filter (lower.holdsOn <| ofRow ·)).filter (upper.holdsOn <| ofRow ·) := by
    rw [List.filter_filter]
    refine List.filter_congr fun row hrow => ?_
    rw [Expr.holdsOn_conjunction (List.forall_mem_cons.mpr
      ((hsplits row hrow).imp_right List.forall_mem_singleton.mpr)), List.all_cons, List.all_cons,
      List.all_nil, Bool.and_true, Bool.and_comm]
  rw [filterRows_eq_ok_iff, hholds, and_comm]
  refine and_congr_right fun _ => ?_
  by_cases hfalse : (Expr.conjunctsOf [lower, upper]).any Expr.isAlwaysFalse = true
  · refine iff_of_true (fun row hrow => ?_) (.inl hfalse)
    exact (Expr.hasValue_conjunction_iff (hsplits row hrow).1 (hsplits row hrow).2).mpr (.inl hfalse)
  · rw [or_iff_right hfalse]
    refine forall₂_congr fun row hrow => ?_
    rw [Expr.hasValue_conjunction_iff (hsplits row hrow).1 (hsplits row hrow).2, or_iff_right hfalse]
    constructor
    · rintro ⟨-, hread⟩ hnull
      exact hread (by rw [hnull]; nofun)
    · refine fun hnull => ⟨hlowerValues row hrow, fun hread => ?_⟩
      -- A row that the lower filter keeps has a value for the upper one; any other has none or null.
      have htruth := Expr.isTruth_of_splitsOn (hsplits row hrow).1
      rw [evalOn_ofRow] at htruth
      obtain ⟨v, hv⟩ := hlowerValues row hrow
      rw [hv] at htruth hread
      cases v with
      | boolean b =>
        cases b with
        | false => exact absurd rfl hread
        | true =>
          refine hupperValues row (List.mem_filter.mpr ⟨hrow, ?_⟩)
          rw [Expr.holdsOn, evalOn_ofRow, hv]
          rfl
      | null => exact hnull hv
      | _ => cases htruth

namespace Cluster

open Planning

variable {c : Cluster} {id bottom input : NodeId} {v v' : Convention} {upper lower : Expr}

/-- Of two filters, one above the other, one on both conditions is offered. -/
theorem exists_filterMerge (hid : c.IsNode id (.filter v upper) [bottom])
    (hbottom : c.IsNode bottom (.filter v' lower) [input]) :
    ∃ offered c', (Rule.filterMerge.offer id).Runs c (some offered) c' ∧
      c'.IsNode offered (.filter .none (Expr.conjunction [lower, upper])) [input] := by
  obtain ⟨offered, c', hoffer⟩ := Rule.filterMerge_succeeds hid hbottom
  obtain ⟨_, _, _, _, _, _, hid', hbottom', hnode⟩ := Rule.runs_filterMerge hid.lt_size hoffer
  have hgrow := (Rule.grows_filterMerge id).runs hoffer
  -- the filters that were found are the given ones
  cases hid'.operator_eq.symm.trans (hid.mono hgrow).operator_eq
  cases hid'.inputs_eq.symm.trans (hid.mono hgrow).inputs_eq
  cases hbottom'.operator_eq.symm.trans (hbottom.mono hgrow).operator_eq
  cases hbottom'.inputs_eq.symm.trans (hbottom.mono hgrow).inputs_eq
  exact ⟨offered, c', hoffer, hnode⟩

/-- If two filters, the lower and then the upper one, leave rows of those of an input, then the one that
the rule builds over this input leaves these rows and no others, unless it fails. It fails exactly if the
upper condition does on a row of which the lower one is unknown, and no conjunct is the literal FALSE. -/
theorem filterMerge_rows (hid : c.IsNode id (.filter .none upper) [bottom])
    (hbottom : c.IsNode bottom (.filter .none lower) [input]) :
    ∃ offered condition c', (Rule.filterMerge.offer id).Runs c (some offered) c' ∧
      c'.IsNode offered (.filter .none condition) [input] ∧
      ∀ rows kept result found, (∀ row ∈ rows, ∀ k ∈ lower.conjuncts ++ upper.conjuncts,
          (k.evalOn (ofRow row)).isTruth = true) →
        filterRows lower rows = .ok kept → filterRows upper kept = .ok result →
        (filterRows condition rows = .ok found ↔
          found = result ∧ ((Expr.conjunctsOf [lower, upper]).any Expr.isAlwaysFalse = true ∨
            ∀ row ∈ rows, lower.eval row = .ok .null → ∃ v, upper.eval row = .ok v)) := by
  obtain ⟨offered, c', hoffer, hnode⟩ := exists_filterMerge hid hbottom
  refine ⟨offered, _, c', hoffer, hnode, fun rows kept result found htruths hlower hupper => ?_⟩
  refine filterRows_conjunction_iff (fun row hrow => ?_) hlower hupper
  have htruth := htruths row hrow
  rw [List.forall_mem_append] at htruth
  exact ⟨Expr.splitsOn_iff.mpr htruth.1, Expr.splitsOn_iff.mpr htruth.2⟩

/-! ## A condition that is not needed -/

/-- One flag, which is not known. -/
def unknownFlag : Table :=
  { name := ["FLAGS"], rowType := ⟨[⟨"flag", .boolean, true⟩]⟩, source := some (.ok [[.null]]) }

/-- The rows with a flag, and of those the ones that satisfy a condition. -/
def flagged (condition : Expr) : Planning NodeId := do
  let scan ← createDefault (.scan .none unknownFlag) []
  let kept ← createDefault (.filter .none (.column 0 .boolean)) [scan]
  createDefault (.filter .none condition) [kept]

def flaggedSession (condition : Expr) : Cluster :=
  ((flagged condition).run.run (start ⟨[unknownFlag]⟩ default default)).2

/-- Whether the flag is known has a value on every row, on those with an unknown flag too. -/
theorem filterMerge_rows_flags : ∃ offered condition c',
    (Rule.filterMerge.offer 2).Runs
      (flaggedSession (.call .isNotNull [.column 0 .boolean])) (some offered) c' ∧
    c'.IsNode offered (.filter .none condition) [0] ∧
    filterRows condition [[.null], [.boolean true]] = .ok [[.boolean true]] := by
  have hupper : (flaggedSession (.call .isNotNull [.column 0 .boolean])).IsNode 2
      (.filter .none (.call .isNotNull [.column 0 .boolean])) [1] := ⟨by decide +kernel, rfl, rfl⟩
  have hlower : (flaggedSession (.call .isNotNull [.column 0 .boolean])).IsNode 1
      (.filter .none (.column 0 .boolean)) [0] := ⟨by decide +kernel, rfl, rfl⟩
  obtain ⟨offered, condition, c', hoffer, hnode, hrows⟩ := filterMerge_rows hupper hlower
  refine ⟨offered, condition, c', hoffer, hnode, ?_⟩
  refine (hrows _ [[.boolean true]] [[.boolean true]] _ (by decide) rfl rfl).mpr ⟨rfl, .inr ?_⟩
  intro row hrow _
  rcases List.mem_pair.mp hrow with rfl | rfl
  · exact ⟨_, rfl⟩
  · exact ⟨_, rfl⟩

/-- That one divided by zero is one. -/
def quotientCondition : Expr :=
  .call .equals [.call .divide [.literal (.integer 1), .literal (.integer 0)], .literal (.integer 1)]

/-- Two filters keep the row with the unknown flag from the quotient, and their plan returns no rows. The
filter that is built for them divides by zero on it. -/
theorem filterMerge_divides :
    (∀ id < (flaggedSession quotientCondition).size,
      ((flaggedSession quotientCondition).check id).isOk = true) ∧
    (flaggedSession quotientCondition).IsNode 2 (.filter .none quotientCondition) [1] ∧
    (flaggedSession quotientCondition).IsNode 1 (.filter .none (.column 0 .boolean)) [0] ∧
    (flaggedSession quotientCondition).Returns 0 [[.null]] ∧
    (flaggedSession quotientCondition).Returns 2 [] ∧
    (∀ k ∈ (Expr.column 0 .boolean).conjuncts ++ quotientCondition.conjuncts,
      (k.evalOn (ofRow [.null])).isTruth = true) ∧
    filterRows (.column 0 .boolean) [[.null]] = .ok [] ∧ filterRows quotientCondition [] = .ok [] ∧
    ∃ condition c', (Rule.filterMerge.offer 2).Runs (flaggedSession quotientCondition) (some 3) c' ∧
      c'.IsNode 3 (.filter .none condition) [0] ∧
      filterRows condition [[.null]] = .error .divisionByZero ∧
      ((run 3 false).run.run c').1.toOption = none := by
  refine ⟨by decide +kernel, ⟨by decide +kernel, rfl, rfl⟩, ⟨by decide +kernel, rfl, rfl⟩,
    returns_of_ranRows (by decide +kernel) (by decide +kernel),
    returns_of_ranRows (by decide +kernel) (by decide +kernel), by decide +kernel, rfl, rfl, ?_⟩
  have hoffer := runs_leaves (c := flaggedSession quotientCondition)
    (x := Rule.filterMerge.offer 2) (a := some 3) (by decide +kernel)
  exact ⟨_, _, hoffer, ⟨by decide +kernel, rfl, rfl⟩, rfl, by decide +kernel⟩

end Cluster

end QueryPlan
