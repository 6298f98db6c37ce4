import QueryPlan.Cluster.Basic
/-!
Patterns of plans: a test of a node's operator, with patterns for its inputs.
-/
namespace QueryPlan

/-- A test of an operator. All but `any` ask for the logical convention. -/
inductive OperatorTest where
  | any
  | filter
  | project
  | join
  deriving DecidableEq, Repr

/-- Name of a test. -/
def OperatorTest.text : OperatorTest → String
  | any => "any"
  | filter => "filter"
  | project => "project"
  | join => "join"

/-- Whether an operator passes a test. -/
def OperatorTest.accepts : OperatorTest → Operator → Bool
  | any, _ => true
  | filter, .filter .none _ => true
  | project, .project .none _ => true
  | join, .join .logical _ _ => true
  | _, _ => false

/-- A shape of plan. -/
inductive Pattern where
  /-- Whatever the inputs are. -/
  | node (test : OperatorTest)
  /-- No inputs. -/
  | leaf (test : OperatorTest)
  /-- One pattern for each input. -/
  | withInputs (test : OperatorTest) (inputs : List Pattern)

namespace Pattern

mutual

/-- Whether the plan under a node has the shape. -/
def accepts (c : Cluster) : Pattern → NodeId → Bool
  | node test, id => test.accepts (c.operator id)
  | leaf test, id => test.accepts (c.operator id) && (c.inputs id).isEmpty
  | withInputs test inputs, id => test.accepts (c.operator id) && acceptEach c inputs (c.inputs id)

/-- Whether there are as many nodes as patterns and each has its shape. -/
def acceptEach (c : Cluster) : List Pattern → List NodeId → Bool
  | [], [] => true
  | p :: ps, id :: ids => accepts c p id && acceptEach c ps ids
  | _, _ => false

end

end Pattern

end QueryPlan
