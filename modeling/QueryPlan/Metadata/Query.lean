import QueryPlan.Cluster.Basic
/-!
Questions about the nodes of a session, and the memory of answers.

A question may be answered through other questions. Answers are remembered, and so is which
questions are being answered: a question that needs its own answer fails. A question that fails is
forgotten, so that it can be asked again.
-/
namespace QueryPlan

/-- The questions that can be asked of a node. -/
inductive Topic where
  | rowCount
  | collations
  | distinct
  | lineage
  | tableRefs
  deriving DecidableEq, Repr

def Topic.text : Topic → String
  | .rowCount => "row count"
  | .collations => "collations"
  | .distinct => "distinct row count"
  | .lineage => "expression lineage"
  | .tableRefs => "table references"

/-- Why a question has no answer. -/
inductive QueryError where
  /-- The answer was needed to find itself. -/
  | cyclic (node : NodeId) (topic : Topic)
  /-- The query breaks off at a fault of the plan. -/
  | fault (error : PlanError)

def QueryError.text : QueryError → String
  | .cyclic node topic => "cyclic metadata: " ++ topic.text ++ " of " ++ toString node
  | .fault error => error.text

/-- What is remembered of a question. -/
inductive Entry (α : Type) where
  | inProgress
  | done (answer : α)

/-- What is remembered of the questions of one topic. -/
abbrev Entries (κ α : Type) := List (κ × Entry α)

namespace Entries

def erase {κ α : Type} [BEq κ] (entries : Entries κ α) (key : κ) : Entries κ α :=
  entries.filter fun e => !(e.1 == key)

def put {κ α : Type} [BEq κ] (entries : Entries κ α) (key : κ) (entry : Entry α) : Entries κ α :=
  (key, entry) :: entries.erase key

end Entries

/-- A question for a number of distinct rows: the node, the columns that are to differ, and a
predicate on the rows. -/
structure DistinctKey where
  node : NodeId
  columns : ColumnSet
  predicate : Option Expr

instance : BEq DistinctKey :=
  ⟨fun a b => a.node == b.node && decide (a.columns = b.columns) && a.predicate == b.predicate⟩

/-- A question for the lineage of an expression over a node's output. -/
structure LineageKey where
  node : NodeId
  expr : Expr

instance : BEq LineageKey := ⟨fun a b => a.node == b.node && a.expr == b.expr⟩

/-- Expressions over table columns that equal an expression, in their order; `none` if it cannot be
traced. -/
abbrev Lineage := Option (List Expr)

/-- What is remembered of all questions. -/
structure Memory where
  rowCount : Entries NodeId Float := []
  collations : Entries NodeId (List Collation) := []
  distinct : Entries DistinctKey (Option Float) := []
  lineage : Entries LineageKey Lineage := []
  tableRefs : Entries NodeId (Option (List TableRef)) := []

/-- A query: an answer, and the memory afterwards. -/
abbrev Querying (α : Type) := ExceptT QueryError (StateM Memory) α

/-- Where the entries of a topic are kept. -/
structure Shelf (κ α : Type) where
  entries : Memory → Entries κ α
  store : Memory → Entries κ α → Memory

namespace Shelf

def rowCount : Shelf NodeId Float := ⟨Memory.rowCount, fun m t => { m with rowCount := t }⟩

def collations : Shelf NodeId (List Collation) :=
  ⟨Memory.collations, fun m t => { m with collations := t }⟩

def distinct : Shelf DistinctKey (Option Float) :=
  ⟨Memory.distinct, fun m t => { m with distinct := t }⟩

def lineage : Shelf LineageKey Lineage := ⟨Memory.lineage, fun m t => { m with lineage := t }⟩

def tableRefs : Shelf NodeId (Option (List TableRef)) :=
  ⟨Memory.tableRefs, fun m t => { m with tableRefs := t }⟩

/-- What is remembered of a question. -/
def remembered? {κ α : Type} [BEq κ] (shelf : Shelf κ α) (key : κ) (m : Memory) :
    Option (Entry α) :=
  List.lookup key (shelf.entries m)

/-- Remembers a question that was not asked before. -/
def note {κ α : Type} [BEq κ] (shelf : Shelf κ α) (key : κ) (entry : Entry α) (m : Memory) :
    Memory :=
  shelf.store m ((shelf.entries m).put key entry)

/-- Forgets a question. -/
def forget {κ α : Type} [BEq κ] (shelf : Shelf κ α) (key : κ) (m : Memory) : Memory :=
  shelf.store m ((shelf.entries m).erase key)

/-- Answers a question from memory, or computes the answer and remembers it. -/
def memoize {κ α : Type} [BEq κ] (shelf : Shelf κ α) (key : κ) (node : NodeId) (topic : Topic)
    (compute : Querying α) : Querying α :=
  ExceptT.mk fun m =>
    match shelf.remembered? key m with
    | some (.done answer) => (.ok answer, m)
    | some .inProgress => (.error (.cyclic node topic), m)
    | none =>
      match compute.run (shelf.note key .inProgress m) with
      | (.ok answer, m') => (.ok answer, shelf.note key (.done answer) m')
      | (.error e, m') => (.error e, shelf.forget key m')

end Shelf

/-- The questions that a method can ask to find its answer. -/
structure Asking where
  rowCount : NodeId → Querying Float
  collations : NodeId → Querying (List Collation)
  distinct : NodeId → ColumnSet → Option Expr → Querying (Option Float)
  lineage : NodeId → Expr → Querying Lineage
  tableRefs : NodeId → Querying (Option (List TableRef))

namespace Querying

/-- A value that is there, or else the fault of reading beyond an end. -/
def ofOption {α : Type} (value : Option α) : Querying α :=
  match value with
  | some a => pure a
  | none => throw (.fault .outOfRange)

/-- The input of a node at a position. -/
def input (c : Cluster) (id : NodeId) (position : Nat) : Querying NodeId :=
  ofOption (c.input? id position)

/-- The answer of a query, or `none` if it is cyclic. Any other failure stays one. -/
def skipCyclic {α : Type} (query : Querying α) : Querying (Option α) :=
  ExceptT.mk fun m =>
    match query.run m with
    | (.ok answer, m') => (.ok (some answer), m')
    | (.error (.cyclic _ _), m') => (.ok none, m')
    | (.error e, m') => (.error e, m')

end Querying

end QueryPlan
