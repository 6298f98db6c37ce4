import QueryPlan.Value
import QueryPlan.ColumnSet
import QueryPlan.Expr.Eval
/-!
Sort orders of relations.

A collation lists fields with a direction and a place for nulls. Rows compare by the first field on
which they differ. Nulls have the same place in the output whatever the direction is.
-/
namespace QueryPlan

/-- How a value moves as the rows advance in the order of a relation. -/
inductive Monotonicity where
  | strictlyIncreasing
  | increasing
  | strictlyDecreasing
  | decreasing
  | constant
  | notMonotonic
  deriving DecidableEq, Repr, Inhabited

namespace Monotonicity

/-- Movement of the opposite value. -/
def reverse : Monotonicity → Monotonicity
  | strictlyIncreasing => strictlyDecreasing
  | increasing => decreasing
  | strictlyDecreasing => strictlyIncreasing
  | decreasing => increasing
  | m => m

/-- The movement without the claim that values never repeat. -/
def unstrict : Monotonicity → Monotonicity
  | strictlyIncreasing => increasing
  | strictlyDecreasing => decreasing
  | m => m

def isIncreasing : Monotonicity → Bool
  | strictlyIncreasing | increasing => true
  | _ => false

def isDecreasing : Monotonicity → Bool
  | strictlyDecreasing | decreasing => true
  | _ => false

end Monotonicity

/-- Where nulls are placed among the values of a field. -/
inductive NullPlacement where
  | first
  | last
  | unspecified
  deriving DecidableEq, Repr, Inhabited

namespace NullPlacement

def rank : NullPlacement → Nat
  | first => 0
  | last => 1
  | unspecified => 2

instance : Ord NullPlacement := ⟨fun a b => compare a.rank b.rank⟩

def text : NullPlacement → String
  | first => "FIRST"
  | last => "LAST"
  | unspecified => "UNSPECIFIED"

/-- Sign of a null against another value in ascending order. -/
def nullComparison : NullPlacement → Int
  | first => -1
  | _ => 1

end NullPlacement

/-- Direction in which a field is sorted. Equal values of a clustered field are adjacent, without
an order among different ones. -/
inductive Direction where
  | ascending
  | strictlyAscending
  | descending
  | strictlyDescending
  | clustered
  deriving DecidableEq, Repr, Inhabited

namespace Direction

def rank : Direction → Nat
  | ascending => 0
  | strictlyAscending => 1
  | descending => 2
  | strictlyDescending => 3
  | clustered => 4

instance : Ord Direction := ⟨fun a b => compare a.rank b.rank⟩

def text : Direction → String
  | ascending => "ASC"
  | strictlyAscending => "SASC"
  | descending => "DESC"
  | strictlyDescending => "SDESC"
  | clustered => "CLU"

def isDescending : Direction → Bool
  | descending | strictlyDescending => true
  | _ => false

def reverse : Direction → Direction
  | ascending => descending
  | strictlyAscending => strictlyDescending
  | descending => ascending
  | strictlyDescending => strictlyAscending
  | clustered => clustered

/-- Where nulls go if nothing is said about them: before descending values, after all others. -/
def defaultNulls (d : Direction) : NullPlacement := if d.isDescending then .first else .last

/-- How the values of a field sorted in this direction move. -/
def monotonicity : Direction → Monotonicity
  | ascending => .increasing
  | strictlyAscending => .strictlyIncreasing
  | descending => .decreasing
  | strictlyDescending => .strictlyDecreasing
  | clustered => .notMonotonic

/-- The direction of a field whose values are known to move like this. -/
def ofMonotonicity? : Monotonicity → Option Direction
  | .strictlyIncreasing => some strictlyAscending
  | .increasing => some ascending
  | .strictlyDecreasing => some strictlyDescending
  | .decreasing => some descending
  | .constant | .notMonotonic => none

end Direction

/-- Sort order of one field. -/
structure FieldCollation where
  field : Nat
  direction : Direction
  nulls : NullPlacement
  deriving DecidableEq, Repr, Inhabited

namespace FieldCollation

/-- A field in a direction, nulls where the direction puts them. -/
def directed (field : Nat) (direction : Direction) : FieldCollation :=
  ⟨field, direction, direction.defaultNulls⟩

/-- A field in ascending order, nulls last. -/
def ascending (field : Nat) : FieldCollation := directed field .ascending

instance : Ord FieldCollation :=
  ⟨fun a b => (compare a.field b.field).then
    ((compare a.direction b.direction).then (compare a.nulls b.nulls))⟩

/-- Moves the field by an offset. -/
def shift (offset : Int) (fc : FieldCollation) : FieldCollation :=
  { fc with field := shiftOrdinal offset fc.field }

/-- Order of two values of the field. Descending order exchanges the values and the sign of nulls,
so that nulls stay where they are. -/
def orderValues (fc : FieldCollation) (a b : Value) : Ordering :=
  if fc.direction.isDescending then b.orderNulls a (-fc.nulls.nullComparison)
  else a.orderNulls b fc.nulls.nullComparison

/-- Order of two rows on the field; null where a row has no such column. -/
def order (fc : FieldCollation) (a b : Row) : Ordering :=
  fc.orderValues (a[fc.field]?.getD .null) (b[fc.field]?.getD .null)

/-- Ascending with nulls last is the ordinal alone, and the place of nulls is only written where it
is not that of the direction. -/
def text (fc : FieldCollation) : String :=
  if fc.direction = .ascending ∧ fc.nulls = .last then toString fc.field
  else
    let directed := toString fc.field ++ " " ++ fc.direction.text
    if fc.nulls = fc.direction.defaultNulls then directed else directed ++ " " ++ fc.nulls.text

end FieldCollation

/-- A sort order over the fields of a row. Without fields nothing is said about the order. -/
structure Collation where
  fields : List FieldCollation
  deriving DecidableEq, Repr, Inhabited

namespace Collation

/-- No order. -/
def empty : Collation := ⟨[]⟩

/-- Ascending order on each of the fields in turn. -/
def ofKeys (keys : List Nat) : Collation := ⟨keys.map FieldCollation.ascending⟩

def isEmpty (c : Collation) : Bool := c.fields.isEmpty

/-- The sorted fields, most significant first. -/
def keys (c : Collation) : List Nat := c.fields.map FieldCollation.field

/-- Moves every field by an offset. -/
def shift (offset : Int) (c : Collation) : Collation := ⟨c.fields.map (·.shift offset)⟩

/-- This order, and the other one among rows that it does not separate. -/
def concat (c d : Collation) : Collation := ⟨c.fields ++ d.fields⟩

/-- Whether the leading fields are exactly the given columns, in any sequence. -/
def leadsWith (c : Collation) (columns : ColumnSet) : Bool :=
  columns.size ≤ c.fields.length && ColumnSet.ofList (c.keys.take columns.size) = columns

/-- A collation satisfies each of its initial parts. -/
def satisfies (c d : Collation) : Bool := d.fields.isPrefixOf c.fields

/-- Lexicographic order of collations. -/
def orderFields : List FieldCollation → List FieldCollation → Ordering
  | [], [] => .eq
  | [], _ :: _ => .lt
  | _ :: _, [] => .gt
  | a :: as, b :: bs => (compare a b).then (orderFields as bs)

instance : Ord Collation := ⟨fun c d => orderFields c.fields d.fields⟩

/-- Order of two rows: that of the first field that separates them. -/
def orderBy : List FieldCollation → Row → Row → Ordering
  | [], _, _ => .eq
  | fc :: fcs, a, b => (fc.order a b).then (orderBy fcs a b)

/-- Order of two rows. -/
def order (c : Collation) (a b : Row) : Ordering := orderBy c.fields a b

/-- Whether both rows have every column that comparing them looks at. -/
def canCompareBy : List FieldCollation → Row → Row → Bool
  | [], _, _ => true
  | fc :: fcs, a, b =>
    fc.field < a.length && fc.field < b.length &&
      (fc.order a b != .eq || canCompareBy fcs a b)

/-- Whether two rows can be compared. -/
def canCompare (c : Collation) (a b : Row) : Bool := canCompareBy c.fields a b

/-- Whether any two rows can be compared. -/
def canSort (c : Collation) : List Row → Bool
  | [] => true
  | row :: rows => rows.all (c.canCompare row) && c.canSort rows

/-- Whether a row has every column of the collation. -/
def reads (c : Collation) (row : Row) : Bool := c.keys.all (· < row.length)

/-- Rows in the order of the collation; rows that it does not separate stay in sequence. -/
def sort (c : Collation) (rows : List Row) : List Row :=
  rows.mergeSort fun a b => c.order a b != .gt

/-- Sorts rows, unless comparing two of them looks at a column that one lacks. -/
def sort? (c : Collation) (rows : List Row) : Except EvalError (List Row) :=
  if rows.all c.reads || c.canSort rows then .ok (c.sort rows) else .error .missingColumn

/-- Whether rows are in order, judged by neighbours up to the first that are not. There is no
answer if comparing them looks at a column that one lacks. -/
def sorts? (c : Collation) : List Row → Option Bool
  | a :: b :: rest =>
    if !c.canCompare a b then none
    else if c.order a b == .gt then some false
    else c.sorts? (b :: rest)
  | _ => some true

/-- The fields in brackets. -/
def text (c : Collation) : String :=
  "[" ++ ", ".intercalate (c.fields.map FieldCollation.text) ++ "]"

end Collation

end QueryPlan
