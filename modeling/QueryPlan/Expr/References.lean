import QueryPlan.Expr.Basic
/-!
Changing the references of an expression.

Two traversals carry all of it. `mapColumns` replaces every column reference; `mapColumns?` does so
with a replacement that may be missing and fails as a whole if one is. Replacements are not
traversed again, and calls keep the type they have.
-/
namespace QueryPlan.Expr

mutual

/-- Replaces every column reference. -/
def mapColumns (f : Nat → DataType → Expr) : Expr → Expr
  | column i t => f i t
  | literal v => literal v
  | apply op es t => apply op (mapColumnsEach f es) t
  | tableColumn r i t => tableColumn r i t

/-- `mapColumns` on each expression of a list. -/
def mapColumnsEach (f : Nat → DataType → Expr) : List Expr → List Expr
  | [] => []
  | e :: es => mapColumns f e :: mapColumnsEach f es

end

mutual

/-- Replaces every column reference, if all of them have a replacement. -/
def mapColumns? (f : Nat → DataType → Option Expr) : Expr → Option Expr
  | column i t => f i t
  | literal v => some (literal v)
  | apply op es t => (mapColumnsEach? f es).map fun es => apply op es t
  | tableColumn r i t => some (tableColumn r i t)

/-- `mapColumns?` on each expression of a list. -/
def mapColumnsEach? (f : Nat → DataType → Option Expr) : List Expr → Option (List Expr)
  | [] => some []
  | e :: es =>
    match mapColumns? f e, mapColumnsEach? f es with
    | some e, some es => some (e :: es)
    | _, _ => none

end

mutual

/-- Replaces every use of a table. -/
def mapTables (f : TableRef → TableRef) : Expr → Expr
  | column i t => column i t
  | literal v => literal v
  | apply op es t => apply op (mapTablesEach f es) t
  | tableColumn r i t => tableColumn (f r) i t

/-- `mapTables` on each expression of a list. -/
def mapTablesEach (f : TableRef → TableRef) : List Expr → List Expr
  | [] => []
  | e :: es => mapTables f e :: mapTablesEach f es

end

/-- Moves every column reference by an offset. -/
def shift (offset : Int) (e : Expr) : Expr :=
  e.mapColumns fun i t => column (shiftOrdinal offset i) t

/-- Turns an expression over the output of a projection into one over its input. There is none if
a reference lies beyond the projected expressions. -/
def throughProjection? (projected : List Expr) (e : Expr) : Option Expr :=
  e.mapColumns? fun i _ => projected[i]?

/-- Replaces the column references that have a replacement and keeps the others. -/
def substitute (replacement : Nat → Option Expr) (e : Expr) : Expr :=
  e.mapColumns fun i t => (replacement i).getD (column i t)

/-- Renumbers column references, if each has a new number. -/
def renumber? (position : Nat → Option Nat) (e : Expr) : Option Expr :=
  e.mapColumns? fun i t => (position i).map (column · t)

/-- Gives column references the types of a row type. There is none if a reference lies beyond
it. -/
def retype? (rowType : RowType) (e : Expr) : Option Expr :=
  e.mapColumns? fun i _ => field? rowType i

theorem mapColumnsEach_eq (f : Nat → DataType → Expr) (es : List Expr) :
    mapColumnsEach f es = es.map (mapColumns f) := by
  induction es with
  | nil => rfl
  | cons e es ih => simp [mapColumnsEach, ih]

theorem mapTablesEach_eq (f : TableRef → TableRef) (es : List Expr) :
    mapTablesEach f es = es.map (mapTables f) := by
  induction es with
  | nil => rfl
  | cons e es ih => simp [mapTablesEach, ih]

theorem mapColumnsEach?_eq (f : Nat → DataType → Option Expr) (es : List Expr) :
    mapColumnsEach? f es = es.mapM (mapColumns? f) := by
  induction es with
  | nil => rfl
  | cons e es ih =>
    rw [mapColumnsEach?, ih, List.mapM_cons]
    cases mapColumns? f e <;> cases List.mapM (mapColumns? f) es <;> rfl

end QueryPlan.Expr
