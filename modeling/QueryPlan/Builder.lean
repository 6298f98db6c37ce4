import QueryPlan.Cluster.Edit
import QueryPlan.Cluster.Walk
/-!
Building logical plans bottom up on a stack. Each step takes its inputs from the top of the stack
and puts the new node there.
-/
namespace QueryPlan

/-- A step of building a plan. The state is the stack, top first. -/
abbrev Building (α : Type) := StateT (List NodeId) Planning α

namespace Building

/-- Takes the top of the stack. -/
def pop : Building NodeId := do
  match ← get with
  | [] => throw .emptyStack
  | id :: rest =>
    set rest
    return id

/-- Takes the given number of nodes, the topmost last. -/
def popMany (count : Nat) : Building (List NodeId) := do
  let stack ← get
  if stack.length < count then throw (.shortStack count stack.length)
  set (stack.drop count)
  return (stack.take count).reverse

/-- Puts an existing node on the stack. -/
def push (id : NodeId) : Building Unit := modify (id :: ·)

/-- Creates a logical node over inputs and puts it on the stack. -/
def pushNew (operator : Operator) (inputs : List NodeId) : Building Unit := do
  let id ← Cluster.createDefault operator inputs
  push id

/-- Reference to a field of the topmost node. -/
def field (index : Nat) : Building Expr := do
  match ← get with
  | [] => throw .outOfRange
  | top :: _ =>
    let rowType ← Planning.read (·.rowType top)
    Planning.ofOption (Expr.field? rowType index)

/-- Reference to a field of the left or the right input of a join of the two topmost nodes,
counted as in the output of the join. -/
def joinField (side : Side) (index : Nat) : Building Expr := do
  match ← get with
  | right :: left :: _ =>
    let leftType ← Planning.read (·.rowType left)
    match side with
    | .left => Planning.ofOption (Expr.field? leftType index)
    | .right =>
      let rightType ← Planning.read (·.rowType right)
      Planning.ofOption ((Expr.field? rightType index).map (·.shift leftType.arity))
  | _ => throw .outOfRange

/-- Scans a table of the catalog. -/
def scan (name : List String) : Building Unit := do
  let table ← Planning.inspect fun c => c.catalog.find name c.config.caseSensitive
  pushNew (.scan .none table) []

def values (rowType : RowType) (tuples : List Row) : Building Unit :=
  pushNew (.values .none rowType tuples) []

def filter (condition : Expr) : Building Unit := do
  let input ← pop
  pushNew (.filter .none condition) [input]

/-- Projects expressions under the given names. -/
def projectNamed (exprs : List Expr) (names : List String) : Building Unit := do
  let input ← pop
  pushNew (.projectOf .none exprs names) [input]

/-- Name of a projected expression at a position: that of the field it copies, if it copies one. -/
def defaultName (rowType : RowType) (e : Expr) (position : Nat) : String :=
  ((e.asColumn?.bind fun i => rowType.fields[i]?).map Field.name).getD ("$f" ++ toString position)

/-- Projects expressions. -/
def project (exprs : List Expr) : Building Unit := do
  match ← get with
  | [] => throw .emptyStack
  | top :: _ =>
    let rowType ← Planning.read (·.rowType top)
    projectNamed exprs (exprs.zipIdx.map fun (e, i) => defaultName rowType e i)

/-- Joins the two topmost nodes, the topmost being the right input. -/
def join (joinType : JoinType) (condition : Expr) : Building Unit := do
  let right ← pop
  let left ← pop
  pushNew (.join .logical joinType condition) [left, right]

def aggregate (group : ColumnSet) (calls : List AggregateCall) : Building Unit := do
  let input ← pop
  pushNew (.aggregate .none group calls) [input]

def sort (collation : Collation) (offset : Nat) (fetch : Option Nat) : Building Unit := do
  let input ← pop
  pushNew (.sort .none collation offset fetch) [input]

def union (all : Bool) (count : Nat) : Building Unit := do
  let inputs ← popMany count
  pushNew (.union .none all) inputs

def intersect (all : Bool) (count : Nat) : Building Unit := do
  let inputs ← popMany count
  pushNew (.intersect all) inputs

def minus (all : Bool) (count : Nat) : Building Unit := do
  let inputs ← popMany count
  pushNew (.minus all) inputs

def exchange (distribution : Distribution) : Building Unit := do
  let input ← pop
  pushNew (.exchange distribution) [input]

/-- Takes the finished plan and checks every node of it. -/
def build : Building NodeId := do
  let root ← pop
  let plan ← Planning.read (·.breadthFirst root)
  plan.forM fun id => Planning.inspect (·.check id)
  return root

end Building

namespace Planning

/-- Runs building steps from an empty stack. -/
def building {α : Type} (steps : Building α) : Planning α := StateT.run' steps []

end Planning

end QueryPlan
