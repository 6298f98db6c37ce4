import QueryPlan.Lattice.Basic
/-!
Drafts of lattices, and the check that makes a lattice of a draft.

A draft lists tables, the root first, and steps between them. It becomes a lattice if its steps
are the edges of a tree with that root.
-/
namespace QueryPlan

/-- A foreign key that leads from one table of a draft to another one. Keys pair a column of the
source with one of the target. -/
structure Step where
  source : Nat
  target : Nat
  keys : List (Nat × Nat)
  deriving DecidableEq, Repr

namespace Lattice

/-- Tables and steps that may form a lattice. -/
structure Draft where
  root : Table
  others : List Table := []
  steps : List Step := []

namespace Draft

/-- Every table, the root first. -/
def tables (d : Draft) : List Table := d.root :: d.others

/-- Adds a table, unless it is there, and returns its position. -/
def addTable (d : Draft) (table : Table) : Draft × Nat :=
  match d.tables.findIdx? (·.same table) with
  | some i => (d, i)
  | none => ({ d with others := d.others ++ [table] }, d.tables.length)

/-- Adds a step. -/
def addStep (d : Draft) (step : Step) : Draft := { d with steps := d.steps ++ [step] }

/-- Name of the table at a position. -/
def nameAt (d : Draft) (position : Nat) : List String :=
  (d.tables[position]?.map Table.name).getD []

/-- Number of columns of the table at a position. -/
def arityAt (d : Draft) (position : Nat) : Nat :=
  (d.tables[position]?.map (·.rowType.arity)).getD 0

/-- Whether keys are columns of the tables that a step connects. -/
def hasKeys (d : Draft) (step : Step) : Bool :=
  !step.keys.isEmpty &&
    step.keys.all fun (s, t) => s < d.arityAt step.source && t < d.arityAt step.target

/-- Checks a step. `reached` are the targets of the steps before it. -/
def checkStep (d : Draft) (reached : List Nat) (step : Step) : Except LatticeFault Unit :=
  let count := d.tables.length
  if count ≤ step.source ∨ count ≤ step.target then
    .error (.unknownTable step.source step.target)
  else if step.target = 0 then .error .rootTarget
  else if reached.contains step.target then .error (.repeatedTarget (d.nameAt step.target))
  else if !d.hasKeys step then
    .error (.badKeys step.keys (d.nameAt step.source) (d.nameAt step.target))
  else .ok ()

/-- Checks every step in sequence. -/
def checkSteps (d : Draft) (reached : List Nat) : List Step → Except LatticeFault Unit
  | [] => .ok ()
  | step :: steps => do
    d.checkStep reached step
    d.checkSteps (step.target :: reached) steps

/-- Components of tables after two of them are connected: every table has the label of its
component. -/
def connect (labels : List Nat) (a b : Nat) : List Nat :=
  let old := labels[a]?.getD a
  let new := labels[b]?.getD b
  labels.map fun label => if label = old then new else label

/-- Whether some step connects tables that are connected by the steps before it. -/
def hasCycle (labels : List Nat) : List Step → Bool
  | [] => false
  | step :: steps =>
    labels[step.source]? == labels[step.target]? ||
      hasCycle (connect labels step.source step.target) steps

/-- Tables that steps lead to from a table, in the sequence of the steps. -/
def children (d : Draft) (position : Nat) : List Nat :=
  (d.steps.filter (·.source = position)).map Step.target

/-- A table and the tables reached from it, depth first. The first argument bounds the length of the
ways. -/
def depthFirst (d : Draft) : Nat → Nat → List Nat
  | 0, _ => []
  | depth + 1, position => position :: (d.children position).flatMap (d.depthFirst depth)

/-- The tables reached from the root in the sequence of their star columns. -/
def layout (d : Draft) : List Nat := d.depthFirst d.tables.length 0

/-- The branch of a table in a layout. -/
def branchAt? (d : Draft) (layout : List Nat) (position : Nat) : Option Branch := do
  let table ← d.tables[position]?
  let step ← d.steps.find? (·.target = position)
  let parent ← layout.findIdx? (· = step.source)
  return ⟨table, parent, step.keys⟩

/-- The lattice of a draft, whose tables are laid out depth first. -/
def build (d : Draft) (starName : List String) : Except LatticeFault Lattice := do
  d.checkSteps [] d.steps
  if hasCycle (List.range d.tables.length) d.steps then .error .cycle
  else
    let layout := d.layout
    match (List.range d.tables.length).find? (!layout.contains ·) with
    | some position => .error (.unreachable (d.nameAt position))
    | none => .ok ⟨d.root, (layout.drop 1).filterMap (d.branchAt? layout), starName⟩

end Draft

end Lattice

end QueryPlan
