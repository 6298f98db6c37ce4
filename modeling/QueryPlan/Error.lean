import QueryPlan.Expr.Eval
import QueryPlan.Traits
import QueryPlan.Operator.Kind
import QueryPlan.Operator.Aggregate
/-!
What can go wrong in a planning session, as causes. The wording of a cause is in one place, `text`.
-/
namespace QueryPlan

/-- Nodes of a session are numbered from zero in the order of their creation. -/
abbrev NodeId := Nat

/-- What a node does wrong with the stream of its rows. -/
inductive StreamFault where
  | sentAfterEnd (row : Row)
  | endedTwice
  | notEnded

namespace StreamFault

def text : StreamFault → String
  | sentAfterEnd row => "row " ++ row.text ++ " sent after end of stream"
  | endedTwice => "end of stream signalled twice"
  | notEnded => "node finished without ending its output"

end StreamFault

/-- What is wrong with a node, or with what is asked of it. -/
inductive NodeFault where
  | inputCount (kind : Kind) (expected actual : Nat)
  | noInput (kind : Kind)
  | unknownInput (input : NodeId)
  | convention (kind : Kind) (convention : Convention)
  | copyInputCount (actual expected : Nat)
  | notSubset
  | unsatisfiedTraits (member subset : Traits)
  | notMember (member : NodeId)
  | emptySubset
  | subsetReachesItself
  | conditionType (condition : Expr)
  | unknownColumn (what : String) (expr : Expr) (column arity : Nat)
  | groupColumn (column : Nat)
  | callColumn (call : AggregateCall)
  | callArity (call : AggregateCall)
  | requiredColumn (column : Nat)
  | distributionKey (column : Nat)
  | sortKey (column : Nat)
  | tooFewInputs (actual : Nat)
  | incompatibleInputs
  | tupleWidth (actual expected : Nat)
  | missingInput
  | stream (fault : StreamFault)

namespace NodeFault

def text : NodeFault → String
  | inputCount k n m => k.text ++ " takes " ++ toString n ++ " inputs, got " ++ toString m
  | noInput k => k.text ++ " takes at least one input"
  | unknownInput i => "unknown input " ++ toString i
  | convention k c => k.text ++ " cannot have convention " ++ c.text
  | copyInputCount n m => "copy with " ++ toString n ++ " inputs, expected " ++ toString m
  | notSubset => "not a subset"
  | unsatisfiedTraits m s => "traits " ++ m.text ++ " do not satisfy subset traits " ++ s.text
  | notMember m => toString m ++ " is not a member"
  | emptySubset => "empty subset"
  | subsetReachesItself => "subset reaches itself"
  | conditionType c => "condition " ++ c.text ++ " has type " ++ c.dataType.text
  | unknownColumn what e i n =>
    what ++ " " ++ e.text ++ " references $" ++ toString i ++ " but input has " ++ toString n ++
      " fields"
  | groupColumn i => "group column " ++ toString i ++ " is not an input field"
  | callColumn c => "call " ++ c.text ++ " references a missing input field"
  | callArity c => "call " ++ c.text ++ " takes exactly one argument"
  | requiredColumn i => "required column " ++ toString i ++ " is not a left field"
  | distributionKey i => "key " ++ toString i ++ " is not an input field"
  | sortKey i => "sort key " ++ toString i ++ " is not an input field"
  | tooFewInputs n => "set operation needs 2 or more inputs, got " ++ toString n
  | incompatibleInputs => "inputs have incompatible row types"
  | tupleWidth n m =>
    "tuple of " ++ toString n ++ " values in relation of " ++ toString m ++ " fields"
  | missingInput => "missing input"
  | stream f => f.text

end NodeFault

/-- Why tables and steps do not form a lattice. Tables are given by name, steps by the positions of
their tables. -/
inductive LatticeFault where
  | unknownTable (source target : Nat)
  | rootTarget
  | repeatedTarget (table : List String)
  | badKeys (keys : List (Nat × Nat)) (source target : List String)
  | cycle
  | unreachable (table : List String)

/-- The parts of a qualified name separated by points. -/
def qualifiedText (name : List String) : String := ".".intercalate name

namespace LatticeFault

/-- Pairs of columns in brackets. -/
def keysText (keys : List (Nat × Nat)) : String :=
  "[" ++ ", ".intercalate (keys.map fun (s, t) => "(" ++ toString s ++ ", " ++ toString t ++ ")")
    ++ "]"

def text : LatticeFault → String
  | unknownTable s t => "step " ++ toString s ++ " -> " ++ toString t ++ " refers to unknown table"
  | rootTarget => "the root table cannot be the target of a step"
  | repeatedTarget t => qualifiedText t ++ " is the target of more than one step"
  | badKeys keys s t =>
    "bad keys " ++ keysText keys ++ " from " ++ qualifiedText s ++ " to " ++ qualifiedText t
  | cycle => "steps form a cycle"
  | unreachable t => qualifiedText t ++ " is not reachable from the root"

end LatticeFault

/-- Why a configuration is rejected. -/
inductive ConfigFault where
  /-- The text is not a configuration in JSON. -/
  | malformed
  /-- An object in the text has something else where a name should be. Columns count bytes. -/
  | nameExpected (line column : Nat)
  | noIterations
  | negativeRowCount
  deriving DecidableEq

namespace ConfigFault

def text : ConfigFault → String
  | malformed => "not a configuration"
  | nameExpected line column =>
    "key must be a string at line " ++ toString line ++ " column " ++ toString column
  | noIterations => "hep_max_iter_times must be positive"
  | negativeRowCount => "subset_row_count_default must not be negative"

end ConfigFault

/-- The two inputs of a join. -/
inductive Side where
  | left
  | right
  deriving DecidableEq

def Side.text : Side → String
  | .left => "left"
  | .right => "right"

/-- Why a request to a planning session fails. -/
inductive PlanError where
  /-- A node was replaced by one with other column types. -/
  | rowTypeMismatch (node : NodeId) (before after : RowType)
  | copyNotSupported (kind : Kind) (traits desired : Traits)
  | invalidNode (node : NodeId) (fault : NodeFault)
  | unknownTable (name : List String)
  | invalidConfig (fault : ConfigFault)
  | invalidLattice (fault : LatticeFault)
  | noRowSource (table : List String)
  | subsetInPlan (node : NodeId)
  | evaluation (error : EvalError)
  | interrupted
  | emptyStack
  | shortStack (needed held : Nat)
  | noRoot
  /-- Something was read beyond its end: a field of a row type, an operand of a call, a projected
  expression. -/
  | outOfRange
  | unsortedMergeJoin (side : Side)
  /-- A metadata question needed more nested questions than the session allows. -/
  | unbounded

namespace PlanError

/-- Description of an error. -/
def text : PlanError → String
  | rowTypeMismatch n before after =>
    "row type of " ++ toString n ++ " changed during registration: before [" ++ before.text ++
      "], after [" ++ after.text ++ "]"
  | copyNotSupported k traits desired =>
    "relational expression should override copy. kind=[" ++ k.text ++ "]; traits=[" ++
      traits.text ++ "]; desired traits=[" ++ desired.text ++ "]"
  | invalidNode n f => "invalid relational expression " ++ toString n ++ ": " ++ f.text
  | unknownTable name => "unknown table: " ++ qualifiedText name
  | invalidConfig f => "invalid configuration: " ++ f.text
  | invalidLattice f => "invalid lattice: " ++ f.text
  | noRowSource name => "unsupported: table " ++ qualifiedText name ++ " has no row source"
  | subsetInPlan n => "unsupported: subset " ++ toString n ++ " left in plan to execute"
  | evaluation e => "evaluation error: " ++ e.text
  | interrupted => "execution interrupted"
  | emptyStack => "relational builder stack is empty"
  | shortStack n m =>
    "set operation over " ++ toString n ++ " inputs but stack holds " ++ toString m
  | noRoot => "heuristic planner has no root"
  | outOfRange => "out of range"
  | unsortedMergeJoin side =>
    "cannot merge join: " ++ side.text ++ " input is not sorted on " ++ side.text ++ " keys"
  | unbounded => "too many nested questions"

/-- Whether the request breaks off at a fault that no check has caught, instead of reporting an
error. -/
def isFault : PlanError → Bool
  | evaluation e => e.isFault
  | outOfRange | unsortedMergeJoin _ | unbounded => true
  | _ => false

end PlanError

end QueryPlan
