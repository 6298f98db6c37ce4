import QueryPlan.Lattice.Basic
import QueryPlan.Planner.Heuristic
/-!
Replacing joins of lattice tables by reads of the star table.

A tree of inner joins and filters over scans matches a lattice if every join follows a step
between the tables of its two sides. The outermost trees that join the root table to another one
are replaced by a filter and a projection over a scan of the star table.
-/
namespace QueryPlan

/-- The outcome of matching: a match, none, or a fault. -/
abbrev Matching (α : Type) := OptionT (Except PlanError) α

namespace Matching

/-- A value that is there, or else no match. -/
def ofOption {α : Type} (value : Option α) : Matching α := OptionT.mk (.ok value)

/-- A value that is there, or else the fault of reading beyond an end. -/
def reading {α : Type} (value : Option α) : Matching α :=
  OptionT.mk <|
    match value with
    | some a => .ok (some a)
    | none => .error .outOfRange

/-- No match unless a condition holds. -/
def require (condition : Bool) : Matching Unit := ofOption (if condition then some () else none)

/-- The first match among several. -/
def first {α β : Type} (attempt : α → Matching β) : List α → Matching (α × β)
  | [] => ofOption none
  | a :: rest => OptionT.mk do
    match ← (attempt a).run with
    | some b => .ok (some (a, b))
    | none => (first attempt rest).run

end Matching

/-- A plan in terms of the star table. -/
structure StarMatch where
  /-- Positions of the tables that are joined. -/
  tables : List Nat
  /-- The star column of each output column. -/
  columns : List Nat
  /-- Conjuncts over star columns. -/
  filters : List Expr

namespace StarMatch

/-- An expression over the output as one over star columns. -/
def toStar (m : StarMatch) (e : Expr) : Option Expr := e.renumber? (m.columns[·]?)

/-- The outputs of two plans side by side. -/
def beside (left right : StarMatch) : StarMatch :=
  ⟨left.tables ++ right.tables, left.columns ++ right.columns, left.filters ++ right.filters⟩

/-- Whether more than one table is joined, one of them the root. -/
def reachesOut (m : StarMatch) : Bool := 1 < m.tables.length && m.tables.contains 0

end StarMatch

namespace Lattice

/-- The conjuncts without the first one that equates two columns, in whichever order. -/
def withoutEquality (a b : Nat) : List Expr → Matching (List Expr)
  | [] => Matching.ofOption none
  | conjunct :: rest => do
    let equality ← Matching.reading conjunct.columnEquality?
    if equality = some (a, b) ∨ equality = some (b, a) then return rest
    else return conjunct :: (← withoutEquality a b rest)

/-- The conjuncts without the equalities of a step's keys, whose columns start at the given star
columns. -/
def withoutKeys (parentStart childStart : Nat) :
    List (Nat × Nat) → List Expr → Matching (List Expr)
  | [], conjuncts => pure conjuncts
  | (s, t) :: keys, conjuncts => do
    let rest ← withoutEquality (parentStart + s) (childStart + t) conjuncts
    withoutKeys parentStart childStart keys rest

/-- The first table on one side whose parent is on the other side, with its branch. -/
def crossing? (l : Lattice) (left right : List Nat) : Option (Nat × Branch) :=
  ((left ++ right).filterMap fun t => (l.branch? t).map (t, ·)).find? fun (t, branch) =>
    left.contains t != left.contains branch.parent && (left ++ right).contains branch.parent

/-- The match of a join from those of its sides. The condition must have the equalities of the step
between the sides. -/
def joinMatch (l : Lattice) (left right : StarMatch) (condition : Expr) : Matching StarMatch := do
  Matching.require (!left.tables.any right.tables.contains)
  let both := left.beside right
  let condition ← Matching.ofOption (both.toStar condition)
  -- Keys are looked for in star columns, in which each table has a place of its own.
  let (child, branch) ← Matching.ofOption (l.crossing? left.tables right.tables)
  let rest ← withoutKeys (l.start branch.parent) (l.start child) branch.keys condition.conjuncts
  return { both with filters := both.filters ++ rest }

/-- The plan under a node in terms of the star table. -/
def matchTree (l : Lattice) (c : Cluster) (id : NodeId) : Matching StarMatch :=
  match c.operator id, c.inputsBelow id with
  | .scan _ table, _ => do
    let i ← Matching.ofOption (l.position? table)
    return ⟨[i], (List.range (l.stop i - l.start i)).map (l.start i + ·), []⟩
  | .filter _ condition, [⟨input, _⟩] => do
    let m ← l.matchTree c input
    let condition ← Matching.ofOption (m.toStar condition)
    return { m with filters := m.filters ++ condition.conjuncts }
  | .join _ .inner condition, [⟨left, _⟩, ⟨right, _⟩] => do
    let left ← l.matchTree c left
    let right ← l.matchTree c right
    l.joinMatch left right condition
  | _, _ => Matching.ofOption none
termination_by id

/-- A tree that joins the root table to another one. -/
def matchStar (l : Lattice) (c : Cluster) (id : NodeId) : Matching StarMatch := do
  let m ← l.matchTree c id
  Matching.require m.reachesOut
  return m

/-- Creates a scan of the star table. -/
def starScan (l : Lattice) : Planning NodeId := Cluster.createDefault (.scan .none l.star) []

/-- Creates the plan of a match over the star table, with the field names of the node it stands
for. -/
def starPlan (l : Lattice) (id : NodeId) (m : StarMatch) : Planning NodeId := do
  let scan ← l.starScan
  let input ← Filter.keeping scan m.filters
  let c ← Planning.read fun c => c
  let exprs ← Planning.ofOption (m.columns.mapM (Expr.field? (c.rowType input)))
  if Expr.areIdentity exprs (c.arity input) then return input
  Cluster.createDefault (.projectOf .none exprs (c.rowType id).names) [input]

/-- Replaces one tree after the other, the first argument at most, and returns the last root if any
was replaced. -/
def useStarWithin (l : Lattice) : Nat → NodeId → Bool → Planning (Option NodeId)
  | 0, root, changed => pure (if changed then some root else none)
  | count + 1, root, changed => do
    let found ← Planning.inspect fun c =>
      (Matching.first (l.matchStar c) (c.breadthFirst root)).run
    match found with
    | none => return if changed then some root else none
    | some (id, m) =>
      -- Of the trees that match, one nearest to the root is replaced first.
      let star ← l.starPlan id m
      let replaced ← Cluster.replace root id star
      l.useStarWithin count replaced true

/-- Replaces the outermost trees that join the root table to another table of the lattice by reads
of the star table, `none` if there is no such tree. Every replacement takes a node with a join
under it out of the plan, so there are no more of them than nodes. -/
def useStar (l : Lattice) (id : NodeId) : Planning (Option NodeId) := do
  let count ← Planning.read fun c => (c.breadthFirst id).length
  l.useStarWithin (count + 1) id false

end Lattice

end QueryPlan
