import QueryPlan.Lattice.Basic
import QueryPlan.Cluster.Walk
/-!
Materialized views, and which of them apply to a query.

A view reads tables and, by their names, other views. It applies to a query if a table that the
query reads leads to it through such reads. Views that read one another in a circle make that no
view applies.
-/
namespace QueryPlan

/-- A table that holds the rows of a defining query. Both are plans of one session. -/
structure Materialization where
  /-- Plan that reads the table. -/
  table : NodeId
  /-- Plan of the defining query. -/
  query : NodeId
  /-- Name of the table. A view without one is only used when it is asked for itself. -/
  name : Option (List String) := none
  /-- The lattice whose star table the defining query reads, if the view is a tile of one. -/
  lattice : Option Lattice := none

namespace Materialization

/-- The name under which a view can be found. Tiles are not found. -/
def findableName? (m : Materialization) : Option (List String) :=
  match m.lattice with
  | none => m.name
  | some _ => none

end Materialization

/-- Which names are read to fill which: every name once, and from the position of a name read to the
position of a view each edge once, all in the sequence in which they were met. -/
structure ReadGraph where
  names : List (List String) := []
  edges : List (Nat × Nat) := []

namespace ReadGraph

/-- Adds a name, unless it is there, and returns its position. -/
def addName (g : ReadGraph) (name : List String) : ReadGraph × Nat :=
  match g.names.findIdx? (· == name) with
  | some i => (g, i)
  | none => ({ g with names := g.names ++ [name] }, g.names.length)

/-- Adds an edge, unless it is there. -/
def addEdge (g : ReadGraph) (edge : Nat × Nat) : ReadGraph :=
  if g.edges.contains edge then g else { g with edges := g.edges ++ [edge] }

/-- Adds the tables that a view reads. -/
def addReads (view : Nat) : List (List String) → ReadGraph → ReadGraph
  | [], g => g
  | name :: names, g =>
    let (g, source) := g.addName name
    addReads view names (g.addEdge (source, view))

/-- Adds a view with the tables that it reads. -/
def addView (g : ReadGraph) (name : List String) (reads : List (List String)) : ReadGraph :=
  let (g, view) := g.addName name
  addReads view reads g

/-- The views that read a name directly. -/
def readers (g : ReadGraph) (position : Nat) : List Nat :=
  (g.edges.filter (·.1 = position)).map Prod.snd

/-- Whether one name leads to another through reads, or is the same. -/
def leadsTo (g : ReadGraph) (a b : Nat) : Bool :=
  (BreadthFirst.walk g.readers (g.names.length + 1) a).contains b

/-- Whether some names read one another in a circle. -/
def hasCycle (g : ReadGraph) : Bool := g.edges.any fun (a, b) => g.leadsTo b a

/-- Progress of ordering names: those that were met, and those whose readers are all ordered, the
last one first. -/
structure Progress where
  met : List Nat := []
  finished : List Nat := []

/-- Orders a name after the names that read it, unless it was met. The first argument bounds the
length of the ways. -/
def visit (g : ReadGraph) : Nat → Progress → Nat → Progress
  | 0, o, _ => o
  | depth + 1, o, position =>
    if o.met.contains position then o
    else
      let o := (g.readers position).foldl (g.visit depth) { o with met := position :: o.met }
      { o with finished := position :: o.finished }

/-- Positions of all names, those that are read before those that read them, provided that there
is no cycle. -/
def ordered (g : ReadGraph) : List Nat :=
  ((List.range g.names.length).foldl (g.visit (g.names.length + 1)) {}).finished

end ReadGraph

namespace Cluster

/-- The graph of what named views read. -/
def readGraph (c : Cluster) (views : List Materialization) : ReadGraph :=
  views.foldl
    (fun g view =>
      match view.findableName? with
      | some name => g.addView name ((c.tables view.query).map Table.name)
      | none => g)
    {}

/-- Position of the last view with a name. -/
def viewNamed? (views : List Materialization) (name : List String) : Option Nat :=
  (views.zipIdx.reverse.find? fun (view, _) => view.findableName? == some name).map Prod.snd

/-- Positions of the views that apply to a query, a view after the views that it reads. -/
def applicableViews (c : Cluster) (query : NodeId) (views : List Materialization) : List Nat :=
  let g := c.readGraph views
  if g.hasCycle then []
  else
    let sources := (c.tables query).filterMap fun table => g.names.findIdx? (· == table.name)
    g.ordered.filterMap fun position => do
      let name ← g.names[position]?
      let view ← viewNamed? views name
      if sources.any fun source => g.leadsTo source position then some view else none

end Cluster

end QueryPlan
