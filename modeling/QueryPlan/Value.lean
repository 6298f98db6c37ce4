import QueryPlan.DataType
import QueryPlan.Double
import QueryPlan.Decimal.Text
/-!
Runtime values and rows.

Values have one total order: null, then Booleans, then numbers, then strings. Integers and doubles
compare with each other as doubles in the total order of doubles, so an integer equals the double
of the same value but not negative zero. Two values are equal when they compare as equal, which is
coarser than being the same value.
-/
namespace QueryPlan

/-- A dynamically typed scalar. -/
inductive Value where
  | null
  | boolean (b : Bool)
  | integer (i : Int64)
  | double (d : Float)
  | varchar (s : String)
  deriving Inhabited

namespace Value

def isNull : Value → Bool
  | null => true
  | _ => false

def dataType : Value → DataType
  | null => .null
  | boolean _ => .boolean
  | integer _ => .bigint
  | double _ => .double
  | varchar _ => .varchar

/-- The value as a double, for numbers. -/
def toDouble? : Value → Option Float
  | integer i => some (Double.ofInt64 i)
  | double d => some d
  | _ => none

/-- The value as an integer, for integers and integral doubles. -/
def toInteger? : Value → Option Int64
  | integer i => some i
  | double d => if Double.isIntegral d then some (Double.toInt64 d) else none
  | _ => none

def toBool? : Value → Option Bool
  | boolean b => some b
  | _ => none

/-- Values of different kinds are ordered by kind, the two kinds of number being one. -/
def rank : Value → Nat
  | null => 0
  | boolean _ => 1
  | integer _ | double _ => 2
  | varchar _ => 3

/-- The total order of values. -/
def order : Value → Value → Ordering
  | boolean a, boolean b => compare a.toNat b.toNat
  | integer a, integer b => compare a.toInt b.toInt
  | integer a, double b => Double.order (Double.ofInt64 a) b
  | double a, integer b => Double.order a (Double.ofInt64 b)
  | double a, double b => Double.order a b
  | varchar a, varchar b => compare a b
  | a, b => compare a.rank b.rank

instance : Ord Value := ⟨order⟩

/-- Equality of values is agreement in the order. -/
instance : BEq Value := ⟨fun a b => compare a b == .eq⟩

/-- Compares two values where `nullComparison` is the sign of a null against any other value, so
that a positive sign puts nulls last. -/
def orderNulls (a b : Value) (nullComparison : Int) : Ordering :=
  match a.isNull, b.isNull with
  | true, true => .eq
  | true, false => compare nullComparison 0
  | false, true => compare 0 nullComparison
  | false, false => compare a b

/-- Strings are quoted, doubles written with their shortest text. -/
def text : Value → String
  | null => "null"
  | boolean b => if b then "true" else "false"
  | integer i => toString i.toInt
  | double d => Decimal.shortestText d
  | varchar s => "'" ++ s ++ "'"

end Value

/-- A tuple of values, one for each column. -/
abbrev Row := List Value

namespace Row

/-- Rows compare column by column; a row comes after its own initial part. -/
def order : Row → Row → Ordering
  | [], [] => .eq
  | [], _ :: _ => .lt
  | _ :: _, [] => .gt
  | a :: as, b :: bs => (compare a b).then (order as bs)

/-- Equality of rows is equality of their values column by column. -/
def same (a b : Row) : Bool := order a b == .eq

/-- A row of nulls. -/
def nulls (arity : Nat) : Row := List.replicate arity .null

/-- Values in brackets. -/
def text (row : Row) : String := "[" ++ ", ".intercalate (row.map Value.text) ++ "]"

end Row

end QueryPlan
