import QueryPlan.Execution.Interpreter
import QueryPlan.Cluster.Rebuild
/-!
Running plans.

`evaluate` is the meaning of a plan: the rows of a node are those of its operator over the rows of
its inputs, evaluated from left to right. `execute` runs the nodes on the streams of their inputs, and a
node that has several users only once.
-/
namespace QueryPlan

namespace Cluster

/-- Rows of a node over the rows of its inputs. Once a run is cancelled, a node fails as soon as it
asks an input for a row. -/
def nodeRows (c : Cluster) (cancelled : Bool) (id : NodeId) (inputs : List (List Row)) :
    Except PlanError (List Row) :=
  let n := c.node id
  -- Scans and literal rows ask no input, so they still deliver.
  if cancelled && Execution.receives n.operator then .error .interrupted
  else
    match n.operator with
    | .scan _ table => table.scan
    | .subset _ => .error (.subsetInPlan id)
    | operator =>
      (Execution.operatorRows operator (n.inputs.map c.arity) inputs).mapError .evaluation

/-- Rows of the plan under a node. -/
def evaluate (c : Cluster) (cancelled : Bool) (id : NodeId) : Except PlanError (List Row) := do
  let inputs ← (c.inputsBelow id).mapM fun ⟨input, _⟩ => c.evaluate cancelled input
  c.nodeRows cancelled id inputs
termination_by id

/-- Runs a node on the rows of its inputs: its sink, and whether the run fails. A run that does not end
its sink fails too. -/
def runNode (c : Cluster) (cancelled : Bool) (id : NodeId) (inputs : List (List Row)) :
    Except PlanError Unit × Execution.Sink :=
  let (outcome, sink) := (Execution.runOperator cancelled id (c.operator id)
    ((c.inputs id).map c.arity) inputs).run.run { node := id }
  if outcome.isOk && !sink.ended then (.error (.invalidNode id (.stream .notEnded)), sink)
  else (outcome, sink)

/-- A run of a plan, which keeps the sinks of the nodes that have been run, the latest first. -/
abbrev Executing (α : Type) := ExceptT PlanError (StateM (List Execution.Sink)) α

/-- Runs a node and keeps its sink, also if the run fails. -/
def runKept (c : Cluster) (cancelled : Bool) (id : NodeId) (inputs : List (List Row)) :
    Executing (List Row) :=
  ExceptT.mk fun sinks =>
    let (outcome, sink) := c.runNode cancelled id inputs
    (outcome.map fun _ => sink.rows, sink :: sinks)

/-- Rows of the plan under a node, each node run once. -/
def execute (c : Cluster) (cancelled : Bool) (id : NodeId) : Executing (List Row) := do
  match (← get).find? (·.node == id) with
  | some sink => return sink.rows
  | none =>
    let inputs ← (c.inputsBelow id).mapM fun ⟨input, _⟩ => c.execute cancelled input
    c.runKept cancelled id inputs
termination_by id

/-- Runs a plan: strips its subsets and returns the rows of what is left. -/
def run (root : NodeId) (cancelled : Bool) : Planning (List Row) := do
  let plan ← stripSubsets root
  Planning.inspect fun c => ((c.execute cancelled plan).run.run []).1

end Cluster

end QueryPlan
