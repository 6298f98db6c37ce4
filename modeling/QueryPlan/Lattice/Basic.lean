import QueryPlan.Table
/-!
Lattices: a root table of facts with further tables that are reached from it along foreign keys,
and the star table that has the columns of all of them.

The tables are in the sequence of their columns in the star table. A row of the star table is a
row of the root table followed by the row of each further table that its foreign key leads to.
-/
namespace QueryPlan

/-- A table reached from an earlier one: pairs of a column of the parent and a column of the table,
which agree. -/
structure Branch where
  table : Table
  /-- Position of the parent among the tables of the lattice. -/
  parent : Nat
  keys : List (Nat × Nat)

/-- A root table and the tables reached from it. -/
structure Lattice where
  root : Table
  branches : List Branch
  /-- Name of the star table. -/
  starName : List String

namespace Lattice

/-- Every table, the root first. -/
def tables (l : Lattice) : List Table := l.root :: l.branches.map Branch.table

/-- Position of a table, if it is part of the lattice. -/
def position? (l : Lattice) (table : Table) : Option Nat := l.tables.findIdx? (·.same table)

/-- The way to the table at a position. The root has none. -/
def branch? (l : Lattice) : Nat → Option Branch
  | 0 => none
  | i + 1 => l.branches[i]?

/-- First star column of the table at a position. -/
def start (l : Lattice) (position : Nat) : Nat :=
  ((l.tables.take position).flatMap (·.rowType.fields)).length

/-- The star column after the last one of the table at a position. -/
def stop (l : Lattice) (position : Nat) : Nat := l.start (position + 1)

/-- The columns of all tables. -/
def starType (l : Lattice) : RowType := ⟨l.tables.flatMap (·.rowType.fields)⟩

/-- Whether a row agrees with a row of a branch on its keys, none of them null. The parent's columns
start at the offset. -/
def agrees (offset : Nat) (row target : Row) : List (Nat × Nat) → Except PlanError Bool
  | [] => .ok true
  | (s, t) :: keys =>
    match row[offset + s]? with
    | none => .error .outOfRange
    | some v =>
      if v.isNull then .ok false
      else
        match target[t]? with
        | none => .error .outOfRange
        | some w => if v == w then agrees offset row target keys else .ok false

/-- The first row of a branch that a row agrees with. -/
def partner (offset : Nat) (keys : List (Nat × Nat)) (row : Row) :
    List Row → Except PlanError (Option Row)
  | [] => .ok none
  | target :: targets => do
    if ← agrees offset row target keys then return some target else partner offset keys row targets

/-- Rows extended by their partners in a branch. Rows without a partner are dropped. -/
def extendRows (offset : Nat) (keys : List (Nat × Nat)) (targets : List Row) :
    List Row → Except PlanError (List Row)
  | [] => .ok []
  | row :: rows => do
    let target ← partner offset keys row targets
    let rest ← extendRows offset keys targets rows
    return match target with
      | some target => (row ++ target) :: rest
      | none => rest

/-- Rows extended by one branch after the other. -/
def extendAlong (l : Lattice) (rows : List Row) : List Branch → Except PlanError (List Row)
  | [] => .ok rows
  | branch :: branches => do
    let targets ← branch.table.scan
    let rows ← extendRows (l.start branch.parent) branch.keys targets rows
    l.extendAlong rows branches

/-- Rows of the star table. -/
def starRows (l : Lattice) : Except PlanError (List Row) := do
  let rows ← l.root.scan
  l.extendAlong rows l.branches

/-- The star table. It counts as having as many rows as the root table. -/
def star (l : Lattice) : Table where
  name := l.starName
  rowType := l.starType
  rowCount := l.root.rowCount
  source := some l.starRows

end Lattice

end QueryPlan
