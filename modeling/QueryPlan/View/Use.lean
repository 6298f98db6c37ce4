import QueryPlan.View.Materialization
import QueryPlan.View.Unify
/-!
Plans that read views and star tables in place of the tables of a query.

Defining query and query are brought to one normal form with one planner, so that equal parts are
the same nodes, before the one is looked for in the other. Plans are combined over the views in
the sequence in which they apply.
-/
namespace QueryPlan

namespace Cluster

/-- A query in terms of the star table, if the view is a tile and the query joins its tables. -/
def overStar (query : NodeId) (view : Materialization) : Planning NodeId := do
  match view.lattice with
  | none => return query
  | some lattice =>
    let leafJoin ← toLeafJoinForm query
    return (← lattice.useStar leafJoin).getD query

/-- Normal forms of a defining query and a query. -/
def normalizePair (definition query : NodeId) : Planning (NodeId × NodeId) := do
  let config ← Planning.read (·.config)
  let planner := Planner.new { rules := Rule.normalize } config
  Planning.registering do
    let definition ← planner.optimize definition
    let query ← planner.optimize query
    return (definition, query)

/-- Plans of a query that read a view, one for each place where the view can be used. -/
def substitute (query : NodeId) (view : Materialization) : Planning (List NodeId) := do
  let query ← overStar query view
  let (definition, query) ← normalizePair view.query query
  unifyAll definition query view.table

/-- A plan and the positions of the views that it reads. -/
structure ViewUse where
  plan : NodeId
  used : List Nat
  deriving DecidableEq, Repr

/-- The plans that arise from using one more view in given plans. -/
def useView (view : Materialization) (position : Nat) (plans : List ViewUse) :
    Planning (List ViewUse) := do
  let found ← plans.mapM fun plan => do
    let substitutes ← substitute plan.plan view
    return substitutes.map fun s => (⟨s, plan.used ++ [position]⟩ : ViewUse)
  return found.flatten

/-- Plans extended by those that use the views at the given positions. -/
def useEach (views : List Materialization) : List Nat → List ViewUse → Planning (List ViewUse)
  | [], plans => pure plans
  | position :: positions, plans =>
    match views[position]? with
    | some view => do
      let more ← useView view position plans
      useEach views positions (plans ++ more)
    | none => useEach views positions plans

/-- Every plan that arises from a query by using views that apply, the query itself not included. -/
def useViews (query : NodeId) (views : List Materialization) : Planning (List ViewUse) := do
  let c ← Planning.read fun c => c
  if !c.config.materializationsEnabled then return []
  let plans ← useEach views (c.applicableViews query views) [⟨query, []⟩]
  -- The first plan is the query.
  return plans.drop 1

/-- Plans of a query in leaf join form that read star tables, with the positions of their
lattices. -/
def useLatticesIn (root : NodeId) : List (Lattice × Nat) → Planning (List (NodeId × Nat))
  | [] => pure []
  | (lattice, position) :: rest => do
    match ← lattice.useStar root with
    | some plan => return (plan, position) :: (← useLatticesIn root rest)
    | none => useLatticesIn root rest

/-- Plans that read star tables, for every lattice whose root table the query reads. -/
def useLattices (query : NodeId) (lattices : List Lattice) :
    Planning (List (NodeId × Nat)) := do
  let c ← Planning.read fun c => c
  if !c.config.latticesEnabled then return []
  let tables := c.tables query
  match lattices.zipIdx.filter fun (lattice, _) => tables.any (·.same lattice.root) with
  | [] => return []
  | candidates =>
    let root ← toLeafJoinForm query
    useLatticesIn root candidates

end Cluster

end QueryPlan
