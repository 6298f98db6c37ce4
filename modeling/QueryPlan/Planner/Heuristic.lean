import QueryPlan.Rule.Basic
import QueryPlan.Planner.Registry
import QueryPlan.Cluster.Graph
/-!
The heuristic planner: changes a plan by rules until no rule changes it or a number of changes has
been made.

Every iteration tries the rules in sequence on the nodes of the plan in match order. The first rule
that changes the plan ends the iteration.
-/
namespace QueryPlan

/-- The rules that a planner runs, and how. What is not set is taken from the session. -/
structure Program where
  rules : List Rule
  order : Option MatchOrder := none
  limit : Option Nat := none

/-- A planner: what it runs, and the root of the plan that it works on. -/
structure Planner where
  rules : List Rule
  order : MatchOrder
  limit : Nat
  root : Option NodeId := none

namespace Planner

/-- A planner for a program. -/
def new (program : Program) (config : Config) : Planner where
  rules := program.rules
  order := program.order.getD config.matchOrder
  limit := program.limit.getD config.maxIterations

/-- The root of a plan after a rule was tried on one of its nodes, `none` if the plan did not
change. -/
def apply (rule : Rule) (id root : NodeId) : Registering (Option NodeId) := do
  if !rule.accepts (← Registering.session) id then return none
  match ← rule.offer id with
  | none => return none
  | some offered =>
    let registered ← Registry.ensureRegistered offered
    -- What is offered is written like the node, so the rule has nothing to change.
    if registered = id then return none
    let replaced ← Cluster.replace root id registered
    return some (← Registry.ensureRegistered replaced)

/-- The root after the first of several attempts that changes the plan, `none` if no one does. -/
def applyFirst (root : NodeId) : List (NodeId × Rule) → Registering (Option NodeId)
  | [] => pure none
  | (id, rule) :: attempts => do
    match ← apply rule id root with
    | some changed => return some changed
    | none => applyFirst root attempts

/-- Every rule on every node of a plan, in the sequence in which they are tried. -/
def attempts (p : Planner) (c : Cluster) (root : NodeId) : List (NodeId × Rule) :=
  (c.nodesIn root p.order).flatMap fun id => p.rules.map (id, ·)

/-- The root after at most the given number of changes. -/
def iterate (p : Planner) : Nat → NodeId → Registering NodeId
  | 0, root => pure root
  | limit + 1, root => do
    match ← applyFirst root (p.attempts (← Registering.session) root) with
    | some changed => p.iterate limit changed
    | none => return root

/-- Registers a node as the root. -/
def setRoot (p : Planner) (id : NodeId) : Registering Planner := do
  return { p with root := some (← Registry.ensureRegistered id) }

/-- The root after the last change. -/
def findBest (p : Planner) : Registering Planner := do
  match p.root with
  | none => throw .noRoot
  | some root => return { p with root := some (← p.iterate p.limit root) }

/-- Changes the plan under a node as far as the planner goes. -/
def optimize (p : Planner) (id : NodeId) : Registering NodeId := do
  p.iterate p.limit (← Registry.ensureRegistered id)

end Planner

namespace Planning

/-- Runs requests with an empty registry. -/
def registering {α : Type} (requests : Registering α) : Planning α :=
  ExceptT.mk fun c =>
    match requests.run {} c with
    | ((outcome, _), c') => (outcome, c')

end Planning

namespace Cluster

/-- Changes the plan under a node by a program. -/
def optimize (program : Program) (id : NodeId) : Planning NodeId := do
  let config ← Planning.read (·.config)
  Planning.registering ((Planner.new program config).optimize id)

/-- The plan under a node with projections above joins and filters in and below them. -/
def toLeafJoinForm (id : NodeId) : Planning NodeId := optimize { rules := Rule.leafJoin } id

end Cluster

end QueryPlan
