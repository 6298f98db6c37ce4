import QueryPlan.Decimal.Spelling
import QueryPlan.Interchange.Basic
/-!
Values, rows and expressions as JSON.

Null, Booleans, strings and integers stand for themselves. An object with the member `d` is a
double and one with the member `i` an integer, both given by their text. An expression that is no
array is a literal; an array starts with an operator, or with a word that says what it is.
-/
namespace QueryPlan.Interchange

/-- An integer of 64 bits. -/
def integerValue (n : Int) : Reading Value :=
  if Int64.minValue.toInt ≤ n ∧ n ≤ Int64.maxValue.toInt then .ok (.integer (Int64.ofInt n))
  else .error .malformed

def readValue : Json → Reading Value
  | .null => .ok .null
  | .bool b => .ok (.boolean b)
  | .number spelling => do integerValue (← need spelling.toInt?)
  | .string s => return .varchar (← need s)
  | .object [(some "d", .string (some s))] => return .double (← need (Decimal.read? s))
  | .object [(some "i", .string (some s))] => do integerValue (← need s.toInt?)
  | _ => .error .malformed

def readRow (j : Json) : Reading Row := readList readValue j

/-- A number: an integer, or the text of a double. -/
def readNumber (j : Json) : Reading Float := do
  match ← readValue j with
  | .varchar s => need (Decimal.read? s)
  | v => need v.toDouble?

def writeDouble (d : Float) : Json := .ofText (Decimal.shortestText d)

def writeEstimate (d : Float) : Json := .ofText (Decimal.estimateText d)

/-- Integers that doubles may not hold exactly are written as text. -/
def writeValue : Value → Json
  | .null => .null
  | .boolean b => .bool b
  | .integer i =>
    if i.toInt.natAbs < Double.exactLimit then .ofInt i.toInt
    else .record [("i", .ofText (toString i.toInt))]
  | .double d => .record [("d", writeDouble d)]
  | .varchar s => .ofText s

def writeRow (row : Row) : Json := .list writeValue row

def readType (j : Json) : Reading DataType :=
  readNamed DataType.text [.boolean, .integer, .bigint, .double, .varchar, .null] j

def readTableRef : Json → Reading TableRef
  | .array [names, entity] => return ⟨← readNames names, ← readNat entity⟩
  | _ => .error .malformed

/-- How a column reference without a type is written: over the rows of a node, or over the left or
the right input of a join. -/
inductive ColumnForm where
  | plain (index : Nat)
  | left (index : Nat)
  | right (index : Nat)

/-- What column references without a type stand for. -/
abbrev Columns := ColumnForm → Reading Expr

/-- Columns of unknown rows are integers. -/
def integerColumns : Columns
  | .plain i => .ok (.column i .integer)
  | _ => .error .malformed

/-- Columns of a row type, which is not derived unless some column is read. -/
def columnsOf (rowType : Thunk RowType) : Columns
  | .plain i => need (Expr.field? rowType.get i)
  | _ => .error .malformed

mutual

/-- An expression. -/
def readExpr (columns : Columns) : Json → Reading Expr
  | .array items => readCompound columns items
  | value => return .literal (← readValue value)

/-- An expression that is written as an array. -/
def readCompound (columns : Columns) : List Json → Reading Expr
  | [.string (some "$"), i] => do columns (.plain (← readNat i))
  | [.string (some "$"), i, type] => return .column (← readNat i) (← readType type)
  | [.string (some "l"), i] => do columns (.left (← readNat i))
  | [.string (some "r"), i] => do columns (.right (← readNat i))
  | [.string (some "tref"), names, entity, i, type] =>
    return .tableColumn ⟨← readNames names, ← readNat entity⟩ (← readNat i) (← readType type)
  | [.string (some "cast"), e, type] => do
    return Expr.cast (← readExpr columns e) (← readType type)
  | .string (some op) :: operands => do
    let op ← need (Op.ofText? op)
    return Expr.call op (← readExprs columns operands)
  | _ => .error .malformed

/-- Expressions of a list. -/
def readExprs (columns : Columns) : List Json → Reading (List Expr)
  | [] => .ok []
  | e :: es => return (← readExpr columns e) :: (← readExprs columns es)

end

/-- An expression with its type. -/
def writeExpr (e : Expr) : Json := .ofText (e.text ++ " : " ++ e.dataType.text)

end QueryPlan.Interchange
