import QueryPlan.Expr.References
/-!
Predicates as conjunctions.

A predicate is split into conjuncts by flattening nested ANDs and dropping the literal TRUE, and put
together again with one AND over all conjuncts, none if there is at most one.
-/
namespace QueryPlan.Expr

mutual

/-- The conjuncts of a predicate from left to right. The literal TRUE has none. -/
def conjuncts : Expr → List Expr
  | apply .and es _ => conjunctsOf es
  | e => if e.isAlwaysTrue then [] else [e]

/-- The conjuncts of a list of predicates. -/
def conjunctsOf : List Expr → List Expr
  | [] => []
  | e :: es => conjuncts e ++ conjunctsOf es

end

/-- The conjunction of predicates, `none` if no conjunct is left. A literal FALSE among the
conjuncts makes it FALSE. -/
def conjunction? (predicates : List Expr) : Option Expr :=
  let parts := conjunctsOf predicates
  if parts.any isAlwaysFalse then some (bool false)
  else
    match parts with
    | [] => none
    | [e] => some e
    | es => some (call .and es)

/-- The conjunction of predicates, TRUE if no conjunct is left. -/
def conjunction (predicates : List Expr) : Expr := (conjunction? predicates).getD (bool true)

/-- The conjuncts of a predicate that read only the given columns, and the others. -/
def splitBy (available : ColumnSet) (predicate : Option Expr) : List Expr × List Expr :=
  match predicate with
  | none => ([], [])
  | some p => p.conjuncts.partition fun c => available.includes c.columns

/-- The columns that an equality of two plain columns compares. The outer `none` says that an
equality lacks operands to compare. -/
def columnEquality? : Expr → Option (Option (Nat × Nat))
  | apply .equals (a :: b :: _) _ =>
    match a.asColumn?, b.asColumn? with
    | some i, some j => some (some (i, j))
    | _, _ => some none
  | apply .equals _ _ => none
  | _ => some none

/-- Whether expressions are exactly the columns of a row of that arity in order. -/
def areIdentity (exprs : List Expr) (arity : Nat) : Bool :=
  exprs.map asColumn? == (List.range arity).map some

theorem conjunctsOf_eq (es : List Expr) : conjunctsOf es = es.flatMap conjuncts := by
  induction es with
  | nil => rfl
  | cons e es ih => simp [conjunctsOf, ih]

end QueryPlan.Expr
