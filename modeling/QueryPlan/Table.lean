import QueryPlan.Error
/-!
Tables as the planner sees them, and the catalog of a session.

A table is known by its qualified name. What its scan yields is part of the table: rows, or the
error that reading them raises, or nothing if it has no source of rows.
-/
namespace QueryPlan

/-- A stored relation with what is declared about it. -/
structure Table where
  name : List String
  rowType : RowType
  /-- Estimated number of rows. -/
  rowCount : Float := 100.0
  /-- Orders that the stored rows follow. -/
  collations : List Collation := []
  /-- Column sets on which no two rows agree. -/
  keys : List ColumnSet := []
  /-- What a scan yields. -/
  source : Option (Except PlanError (List Row)) := none
  deriving Inhabited

namespace Table

/-- Attaches rows; their number becomes the row count. -/
def withRows (t : Table) (rows : List Row) : Table :=
  { t with rowCount := Float.ofNat rows.length, source := some (.ok rows) }

/-- Whether some declared key is among the columns. -/
def isKey (t : Table) (columns : ColumnSet) : Bool := t.keys.any columns.includes

/-- The stored rows. -/
def scan (t : Table) : Except PlanError (List Row) := t.source.getD (.error (.noRowSource t.name))

/-- Whether a table goes by a name. -/
def isNamed (t : Table) (name : List String) (caseSensitive : Bool) : Bool :=
  t.name.length = name.length && (t.name.zip name).all fun (a, b) => sameName caseSensitive a b

/-- Tables are the same if their qualified names are. -/
def same (t u : Table) : Bool := t.name == u.name

end Table

/-- The tables of a session in the order of their addition. -/
structure Catalog where
  tables : List Table := []
  deriving Inhabited

namespace Catalog

/-- Adds a table at the end, in place of one with the same name. -/
def add (c : Catalog) (t : Table) : Catalog := ⟨c.tables.filter (!t.same ·) ++ [t]⟩

/-- The first table that goes by a name. -/
def find (c : Catalog) (name : List String) (caseSensitive : Bool) : Except PlanError Table :=
  match c.tables.find? (·.isNamed name caseSensitive) with
  | some t => .ok t
  | none => .error (.unknownTable name)

end Catalog

end QueryPlan
