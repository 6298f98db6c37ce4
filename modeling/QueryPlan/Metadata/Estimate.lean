import QueryPlan.Expr.Conjunction
/-!
Guesses that row counts and distinct counts are made of.
-/
namespace QueryPlan

namespace Expr

/-- Fraction of rows that a conjunct is expected to keep, judged by its operator alone. -/
def conjunctSelectivity (e : Expr) : Float :=
  match e.op? with
  | some .isNotNull => 0.9
  | some .equals => 0.15
  | some op => if op.isComparison then 0.5 else 0.25
  | none => 0.25

/-- Fraction of rows that a predicate is expected to keep. -/
def selectivity (e : Expr) : Float :=
  e.conjuncts.foldl (fun product c => product * c.conjunctSelectivity) 1.0

end Expr

namespace Estimate

/-- Fraction of rows that an optional predicate is expected to keep. -/
def selectivity (predicate : Option Expr) : Float := (predicate.map Expr.selectivity).getD 1.0

/-- An infinite number as the greatest finite one. -/
def capped (d : Float) : Float := if d.isInf then Double.greatestFinite else d

/-- Expected number of different values among `drawn` values from a domain of the given size. It is
at most the size and at most the number drawn, and not negative. -/
def distinctDrawn (domain drawn : Float) : Float :=
  let domain := capped domain
  let drawn := capped drawn
  let expected := if domain > 0.0 then (1.0 - Float.exp (-drawn / domain)) * domain else 0.0
  let expected := if expected > domain then domain else expected
  let expected := if expected > drawn then drawn else expected
  if expected < 0.0 then 0.0 else expected

/-- Splits output columns of a projection into the input columns they copy and the output columns
that are computed. -/
def splitProjected (exprs : List Expr) (key : ColumnSet) : ColumnSet × ColumnSet :=
  let copied := fun bit => exprs[bit]?.bind Expr.asColumn?
  (ColumnSet.ofList (key.toList.filterMap copied),
    ColumnSet.ofList (key.toList.filter fun bit => (copied bit).isNone))

end Estimate

end QueryPlan
