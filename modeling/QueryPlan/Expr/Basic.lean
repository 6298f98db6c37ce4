import QueryPlan.Value
import QueryPlan.ColumnSet
import QueryPlan.RowType
/-!
Row expressions: the scalar language of filters, projections and join conditions.

An expression refers to the columns of the row it reads by ordinal, or, in a statement about where
a value comes from, to the columns of one particular use of a table. A call carries its result type,
which `Expr.call` derives from the operator and the operands.
-/
namespace QueryPlan

/-- Scalar operators, in the order that sorts them. -/
inductive Op where
  | and | or | not
  | equals | notEquals | lessThan | lessThanOrEqual | greaterThan | greaterThanOrEqual
  | isNull | isNotNull
  | plus | minus | times | divide | unaryMinus
  | floor | ceil | cast
  deriving DecidableEq, Repr, Inhabited

namespace Op

/-- Position of an operator in the order of operators. -/
def rank : Op → Nat
  | .and => 0
  | .or => 1
  | .not => 2
  | equals => 3
  | notEquals => 4
  | lessThan => 5
  | lessThanOrEqual => 6
  | greaterThan => 7
  | greaterThanOrEqual => 8
  | isNull => 9
  | isNotNull => 10
  | plus => 11
  | minus => 12
  | times => 13
  | divide => 14
  | unaryMinus => 15
  | floor => 16
  | ceil => 17
  | cast => 18

instance : Ord Op := ⟨fun a b => compare a.rank b.rank⟩

/-- Every operator. -/
def all : List Op :=
  [.and, .or, .not, equals, notEquals, lessThan, lessThanOrEqual, greaterThan, greaterThanOrEqual,
    isNull, isNotNull, plus, minus, times, divide, unaryMinus, floor, ceil, cast]

def text : Op → String
  | .and => "AND"
  | .or => "OR"
  | .not => "NOT"
  | equals => "="
  | notEquals => "<>"
  | lessThan => "<"
  | lessThanOrEqual => "<="
  | greaterThan => ">"
  | greaterThanOrEqual => ">="
  | isNull => "IS NULL"
  | isNotNull => "IS NOT NULL"
  | plus => "+"
  | minus => "-"
  | times => "*"
  | divide => "/"
  | unaryMinus => "-/1"
  | floor => "FLOOR"
  | ceil => "CEIL"
  | cast => "CAST"

/-- The operator of that text. -/
def ofText? (t : String) : Option Op := all.find? (·.text == t)

def isComparison : Op → Bool
  | equals | notEquals | lessThan | lessThanOrEqual | greaterThan | greaterThanOrEqual => true
  | _ => false

def isArithmetic : Op → Bool
  | plus | minus | times | divide => true
  | _ => false

/-- Whether a call of the operator is a Boolean whatever its operands are. -/
def isPredicate : Op → Bool
  | .and | .or | .not | isNull | isNotNull => true
  | op => op.isComparison

/-- The operator that compares the operands in the other order. -/
def reverse : Op → Op
  | lessThan => greaterThan
  | lessThanOrEqual => greaterThanOrEqual
  | greaterThan => lessThan
  | greaterThanOrEqual => lessThanOrEqual
  | op => op

end Op

/-- One use of a table in a plan. Uses of the same table are told apart by their number, counting
from zero. -/
structure TableRef where
  name : List String
  entity : Nat
  deriving DecidableEq, Repr, Inhabited

/-- Lexicographic order of lists of names. -/
def orderNames : List String → List String → Ordering
  | [], [] => .eq
  | [], _ :: _ => .lt
  | _ :: _, [] => .gt
  | a :: as, b :: bs => (compare a b).then (orderNames as bs)

instance : Ord TableRef :=
  ⟨fun a b => (orderNames a.name b.name).then (compare a.entity b.entity)⟩

def TableRef.text (r : TableRef) : String :=
  "[" ++ ", ".intercalate r.name ++ "].#" ++ toString r.entity

/-- A scalar expression. -/
inductive Expr where
  /-- The value of a column of the row that is read. -/
  | column (index : Nat) (dataType : DataType)
  | literal (value : Value)
  | apply (op : Op) (operands : List Expr) (dataType : DataType)
  /-- The value of a column of the row that a use of a table contributes. -/
  | tableColumn (table : TableRef) (index : Nat) (dataType : DataType)
  deriving Inhabited

namespace Expr

def dataType : Expr → DataType
  | column _ t => t
  | literal v => v.dataType
  | apply _ _ t => t
  | tableColumn _ _ t => t

/-- Result type of an operator applied to operands. Predicates are Boolean, arithmetic widens its
operands and falls back to double, and every other operator keeps the type of its first operand. -/
def resultType (op : Op) (operands : List Expr) : DataType :=
  if op.isPredicate then .boolean
  else if op.isArithmetic then
    (DataType.leastRestrictiveOf (operands.map dataType)).getD .double
  else (operands.head?.map dataType).getD .null

/-- An operator applied to operands, with its derived type. -/
def call (op : Op) (operands : List Expr) : Expr := apply op operands (resultType op operands)

/-- Conversion to a type. -/
def cast (operand : Expr) (target : DataType) : Expr := apply .cast [operand] target

/-- A Boolean literal. -/
def bool (b : Bool) : Expr := literal (.boolean b)

/-- The column of a row type at a position, with its type. -/
def field? (rowType : RowType) (index : Nat) : Option Expr :=
  rowType.fields[index]?.map fun f => column index f.dataType

/-- Ordinal of a plain column reference. -/
def asColumn? : Expr → Option Nat
  | column i _ => some i
  | _ => none

def isLiteral : Expr → Bool
  | literal _ => true
  | _ => false

/-- Whether this is the literal TRUE. -/
def isAlwaysTrue : Expr → Bool
  | literal (.boolean b) => b
  | _ => false

/-- Whether this is the literal FALSE. -/
def isAlwaysFalse : Expr → Bool
  | literal (.boolean b) => !b
  | _ => false

/-- The operator of a call. -/
def op? : Expr → Option Op
  | apply op _ _ => some op
  | _ => none

mutual

/-- Whether the value does not depend on the row. -/
def isConstant : Expr → Bool
  | literal _ => true
  | apply _ es _ => areConstant es
  | _ => false

/-- Whether all expressions of a list are constant. -/
def areConstant : List Expr → Bool
  | [] => true
  | e :: es => isConstant e && areConstant es

end

mutual

/-- Ordinals of the columns an expression reads, in reading order, with repetitions. -/
def columnList : Expr → List Nat
  | column i _ => [i]
  | apply _ es _ => columnListOf es
  | _ => []

/-- Ordinals of the columns that the expressions of a list read. -/
def columnListOf : List Expr → List Nat
  | [] => []
  | e :: es => columnList e ++ columnListOf es

end

/-- The columns an expression reads. -/
def columns (e : Expr) : ColumnSet := ColumnSet.ofList e.columnList

mutual

/-- Operators are written before their operands; a conversion also names its target. -/
def text : Expr → String
  | column i _ => "$" ++ toString i
  | literal v => v.text
  | apply op es t =>
    match op with
    | .cast => "CAST(" ++ ", ".intercalate (texts es) ++ "):" ++ t.text
    | _ => op.text ++ "(" ++ ", ".intercalate (texts es) ++ ")"
  | tableColumn r i _ => r.text ++ ".$" ++ toString i

/-- Texts of a list of expressions. -/
def texts : List Expr → List String
  | [] => []
  | e :: es => text e :: texts es

end

mutual

/-- The total order of expressions: columns, literals, calls, table columns, and within each kind
part by part. Literals compare as values. -/
def order : Expr → Expr → Ordering
  | column i t, column j u => (compare i j).then (compare t u)
  | column _ _, _ => .lt
  | literal _, column _ _ => .gt
  | literal v, literal w => compare v w
  | literal _, _ => .lt
  | apply op es t, apply op' es' t' =>
    (compare op op').then ((orderLists es es').then (compare t t'))
  | apply _ _ _, tableColumn _ _ _ => .lt
  | apply _ _ _, _ => .gt
  | tableColumn r i t, tableColumn r' i' t' =>
    (compare r r').then ((compare i i').then (compare t t'))
  | tableColumn _ _ _, _ => .gt

/-- Lexicographic order of lists of expressions. -/
def orderLists : List Expr → List Expr → Ordering
  | [], [] => .eq
  | [], _ :: _ => .lt
  | _ :: _, [] => .gt
  | e :: es, e' :: es' => (order e e').then (orderLists es es')

end

instance : Ord Expr := ⟨order⟩

/-- Equality of expressions is agreement in the order, so literals are equal as values are. -/
instance : BEq Expr := ⟨fun a b => compare a b == .eq⟩

theorem areConstant_eq (es : List Expr) : areConstant es = es.all isConstant := by
  induction es with
  | nil => rfl
  | cons e es ih => simp [areConstant, ih]

theorem columnListOf_eq (es : List Expr) : columnListOf es = es.flatMap columnList := by
  induction es with
  | nil => rfl
  | cons e es ih => simp [columnListOf, ih]

theorem texts_eq (es : List Expr) : texts es = es.map text := by
  induction es with
  | nil => rfl
  | cons e es ih => simp [texts, ih]

/-- Induction over expressions with the hypothesis for every operand of a call. -/
@[elab_as_elim]
theorem induct {motive : Expr → Prop}
    (column : ∀ i t, motive (.column i t)) (literal : ∀ v, motive (.literal v))
    (apply : ∀ op es t, (∀ e ∈ es, motive e) → motive (.apply op es t))
    (tableColumn : ∀ r i t, motive (.tableColumn r i t)) (e : Expr) : motive e :=
  Expr.rec (motive_1 := motive) (motive_2 := fun es => ∀ e ∈ es, motive e)
    column literal apply tableColumn
    (by simp)
    (fun e es he hes x hx => by
      rcases List.mem_cons.mp hx with rfl | hx
      · exact he
      · exact hes x hx)
    e

end Expr

end QueryPlan
