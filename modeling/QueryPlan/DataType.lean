/-!
Scalar types and their widening.
-/
namespace QueryPlan

/-- Type of a column or an expression. `null` is the type of an untyped null literal. The order
of the constructors is the order of the types. -/
inductive DataType where
  | boolean
  | integer
  | bigint
  | double
  | varchar
  | null
  deriving DecidableEq, Repr, Inhabited

namespace DataType

/-- Name of a type in texts. -/
def text : DataType → String
  | boolean => "BOOLEAN"
  | integer => "INTEGER"
  | bigint => "BIGINT"
  | double => "DOUBLE"
  | varchar => "VARCHAR"
  | null => "NULL"

def isNumeric : DataType → Bool
  | integer | bigint | double => true
  | _ => false

/-- Narrowest type that both sides can be widened to. -/
def leastRestrictive : DataType → DataType → Option DataType
  | null, t => some t
  | t, null => some t
  | a, b =>
    if a = b then some a
    else if !a.isNumeric || !b.isNumeric then none
    else if a = double ∨ b = double then some double
    else some bigint

/-- Widening of a whole list, starting from the type of the null literal. -/
def leastRestrictiveOf (types : List DataType) : Option DataType :=
  types.foldlM leastRestrictive null

end DataType

/-- Position of a type in the order of types. -/
def DataType.rank : DataType → Nat
  | boolean => 0
  | integer => 1
  | bigint => 2
  | double => 3
  | varchar => 4
  | null => 5

instance : Ord DataType := ⟨fun a b => compare a.rank b.rank⟩

end QueryPlan
