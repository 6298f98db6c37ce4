import QueryPlan.Proofs.Planner.Iteration
import QueryPlan.Proofs.Rule.Pulled
/-!
# Optimizing a plan keeps its rows

Every rule offers a node that may stand for the one it was tried on, so a program of rules, in any
order and for any number of changes, returns a plan that delivers the rows of the given one.
-/
namespace QueryPlan

open Cluster

namespace Cluster

/-- No row type has more columns than a machine word counts. -/
def FitsWord (c : Cluster) : Prop := ∀ id < c.size, c.arity id ≤ UInt64.size

instance (c : Cluster) : Decidable c.FitsWord :=
  inferInstanceAs (Decidable (∀ id < c.size, c.arity id ≤ UInt64.size))

end Cluster

namespace Planner

variable {C : Cluster} (supplied : NodeId → List Row)

/-- Every rule offers nodes that may stand for the ones they are offered for. -/
theorem offersRelated_rule (hwords : C.FitsWord) (rule : Rule) :
    OffersRelated (C.StandsFor supplied) C rule := by
  intro id offered c c' hid hvalid haccepts h hC
  have hgrow := ((rule.grows_offer id).runs h).trans hC
  have hvalidC := hvalid.mono hgrow hid
  obtain ⟨hlt, h⟩ := rule.offered_of_runs hid haccepts h hC
  refine ⟨hlt, ?_⟩
  cases h with
  | filterProjectTranspose hnode hproject hthrough hfilter hoffered =>
    exact standsFor_belowProjection hnode hproject hthrough hfilter hoffered
  | projectMerge hnode hbottom hmerged hoffered =>
    exact standsFor_projectionMerge hnode hbottom hmerged hoffered
  | projectRemove hnode hidentity => exact standsFor_removeIdentity hnode hidentity
  | filterMerge hnode hbottom hoffered => exact standsFor_filterMerge hnode hbottom hoffered
  | filterIntoJoin hnode hjoined hleft hright hjoin hoffered _ =>
    refine standsFor_intoJoin hnode hjoined hleft hright hjoin hoffered ?_
      (hwords _ (hjoined.input_lt (by simp)))
    rw [← hjoined.arity_join]
    exact hnode.lt_of_filter hvalidC.check
  | joinProjectTranspose hnode hleft hright hthrough hjoin hcolumns hoffered _ =>
    have hinputs := hvalidC.inputs
    rw [hnode.inputs_eq] at hinputs
    obtain ⟨f, hleft⟩ :=
      Computes.of_pulled supplied (hnode.input_lt (by simp)) (hinputs _ (by simp)).check hleft
    obtain ⟨g, hright⟩ :=
      Computes.of_pulled supplied (hnode.input_lt (by simp)) (hinputs _ (by simp)).check hright
    exact standsFor_aboveJoin hnode hleft hright hthrough hjoin hcolumns hoffered
      (hwords _ hjoin.lt_size)

end Planner

namespace Cluster

/-- Optimizing a plan keeps its rows. The conditions of the plan are predicates on the rows that may
reach them, the tables that it scans store rows of the declared width, and no two nodes of the
session that the planner leaves are written alike and have different operators. -/
theorem optimize_rows {c c' d d' d₁ d₁' : Cluster} {root result : NodeId} {program : Program}
    {cancelled cancelled' : Bool} {rows rows' : List Row} (hroot : root < c.size)
    (hchecked : c.Checked root) (htruthful : c.truthful c.ranRows root = true)
    (hoptimize : (optimize program root).Runs c result c') (hdigest : c'.DigestsIdentify)
    (hwords : c'.FitsWord) (hd : c.Extends d) (hd' : c'.Extends d')
    (hrun : (run root cancelled).Runs d rows d₁)
    (hrun' : (run result cancelled').Runs d' rows' d₁') : rows' = rows := by
  have hgrow := (grows_optimize program root).runs hoptimize
  have hroot' := hgrow.lt_size hroot
  have hrules : ∀ rule ∈ program.rules,
      Planner.OffersRelated (c'.StandsFor c'.ranRows) c' rule :=
    fun rule _ => Planner.offersRelated_rule c'.ranRows hwords rule
  obtain ⟨hresult, -, -, hstands⟩ := optimize_related (standsFor_congruence c' c'.ranRows) hdigest
    hrules hroot hoptimize (.refl c')
  have hsound : c'.Sound c'.ranRows root := by
    apply sound_of_checked hroot' (hchecked.mono hroot hgrow)
    · rw [hgrow.truthful_eq (fun i hi => hgrow.ranRows_eq hi) hroot]
      exact htruthful
    · exact fun i hi => ranRows_delivers (lt_size_of_isSubset hi)
  obtain ⟨-, hrefines⟩ := hstands hsound
  have hsupplied : ∀ i rows, (c'.operator i).isSubset = true → c'.Delivers i rows →
      c'.ranRows i = rows := fun i rows hi => ranRows_of_delivers (lt_size_of_isSubset hi)
  have hdel : c'.Delivers root rows :=
    (hgrow.delivers_iff hroot).mpr
      ((hd.delivers_iff hroot).mp (delivers_of_runs (hd.lt_size hroot) hrun))
  have hdel' : c'.Delivers result rows' :=
    (hd'.delivers_iff hresult).mp (delivers_of_runs (hd'.lt_size hresult) hrun')
  have hrows := hrefines.rows_eq
  rw [meaning_of_delivers hsupplied hdel, meaning_of_delivers hsupplied hdel'] at hrows
  exact OutcomeRow.ofRow_injective.list_map hrows

/-! ## A plan that changes -/

/-- Employees, and the departments of some of them. -/
def employees : Table :=
  { name := ["emps"], rowType := ⟨[⟨"empno", .bigint, false⟩, ⟨"deptno", .bigint, true⟩]⟩,
    source := some (.ok [[.integer 100, .integer 10], [.integer 110, .integer 20],
      [.integer 150, .integer 30]]) }

def departments : Table :=
  { name := ["depts"], rowType := ⟨[⟨"deptno", .bigint, false⟩]⟩,
    source := some (.ok [[.integer 10], [.integer 20]]) }

/-- Employees past the first one, whose departments are known, are asked for above a left join. -/
def knownDepartments : Planning NodeId := do
  let emps ← createDefault (.scan .none employees) []
  let depts ← createDefault (.scan .none departments) []
  let deptno := Expr.call .equals [.column 1 .bigint, .column 2 .bigint]
  let join ← createDefault (.join .logical .left deptno) [emps, depts]
  let later := Expr.call .greaterThan [.column 0 .bigint, .literal (.integer 100)]
  let known := Expr.call .isNotNull [.column 2 .bigint]
  createDefault (.filter .none (Expr.call .and [later, known])) [join]

def employeeSession : Cluster :=
  (knownDepartments.run.run (start ⟨[employees, departments]⟩ default default)).2

/-- The session after one conjunct has moved below the join. -/
def employeesOptimized : Cluster :=
  ((optimize { rules := [.filterIntoJoin] } 3).run.run employeeSession).2

theorem optimize_rows_employees : employeesOptimized.ranRows 6 = employeeSession.ranRows 3 :=
  optimize_rows (by decide +kernel) (.of_all (by decide +kernel) (by decide +kernel))
    (by decide +kernel) (Planning.runs_of_toOption (by decide +kernel))
    (.of_nodup (by decide +kernel)) (by decide +kernel) (.refl _) (.refl _)
    (runs_ranRows (by decide +kernel)) (runs_ranRows (by decide +kernel))

/-! ## Rows of another width -/

/-- A table with one column that stores a row of two values. -/
def wideTable : Table :=
  { name := ["T"], rowType := ⟨[⟨"a", .bigint, true⟩]⟩,
    source := some (.ok [[.integer 1, .integer 2]]) }

/-- The only column of that table. -/
def wideColumn : Planning NodeId := do
  let scan ← createDefault (.scan .none wideTable) []
  createDefault (.project .none [(.column 0 .bigint, "a")]) [scan]

def wideSession : Cluster := (wideColumn.run.run (start ⟨[wideTable]⟩ default default)).2

def wideOptimized : Cluster :=
  ((optimize { rules := [.projectRemove] } 1).run.run wideSession).2

/-- A projection on all columns drops a value that no column declares, and dropping the projection
keeps it. -/
theorem optimize_changes_wide_rows : 1 < wideSession.size ∧ wideSession.Valid 1 ∧
    wideSession.truthful wideSession.ranRows 1 = true ∧
    (optimize { rules := [.projectRemove] } 1).Runs wideSession 0 wideOptimized ∧
    wideOptimized.DigestsIdentify ∧ wideOptimized.FitsWord ∧
    (∃ d, (run 1 false).Runs wideSession (wideSession.ranRows 1) d) ∧
    (∃ d, (run 0 false).Runs wideOptimized (wideOptimized.ranRows 0) d) ∧
    wideOptimized.ranRows 0 ≠ wideSession.ranRows 1 := by
  refine ⟨by decide +kernel, .of_all (by decide +kernel) (by decide +kernel), by decide +kernel,
    Planning.runs_of_toOption (by decide +kernel), .of_nodup (by decide +kernel), by decide +kernel,
    ⟨_, runs_ranRows (by decide +kernel)⟩, ⟨_, runs_ranRows (by decide +kernel)⟩, fun h => ?_⟩
  have hwidths := congrArg (List.map List.length) h
  have hwide : (wideOptimized.ranRows 0).map List.length = [2] := by decide +kernel
  have hnarrow : (wideSession.ranRows 1).map List.length = [1] := by decide +kernel
  rw [hwide, hnarrow] at hwidths
  cases hwidths

end Cluster

end QueryPlan
