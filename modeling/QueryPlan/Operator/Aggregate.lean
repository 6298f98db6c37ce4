import QueryPlan.RowType
/-!
Aggregate functions and calls.
-/
namespace QueryPlan

/-- Functions over the rows of a group. `sum0` is the sum that is zero where there is nothing to
add. -/
inductive AggFunction where
  | count
  | sum
  | sum0
  | min
  | max
  deriving DecidableEq, Repr, Inhabited

namespace AggFunction

def text : AggFunction → String
  | count => "COUNT"
  | sum => "SUM"
  | sum0 => "SUM0"
  | min => "MIN"
  | max => "MAX"

/-- The function that combines results of this function over parts of a group. -/
def rollUp : AggFunction → AggFunction
  | count | sum0 => sum0
  | sum => sum
  | min => min
  | max => max

end AggFunction

/-- An aggregate function applied to input columns. A count without arguments counts rows. -/
structure AggregateCall where
  function : AggFunction
  args : List Nat
  name : String
  deriving DecidableEq, Repr, Inhabited

namespace AggregateCall

def text (c : AggregateCall) : String :=
  c.function.text ++ "(" ++ ", ".intercalate (c.args.map fun a => "$" ++ toString a) ++ ")"

/-- The output column of a call over an input. Counts are never null, nor are sums that start from
zero. -/
def field (c : AggregateCall) (input : RowType) : Field :=
  match c.function with
  | .count => ⟨c.name, .bigint, false⟩
  | function =>
    let argument := c.args.head?.bind fun a => input.fields[a]?
    ⟨c.name, (argument.map Field.dataType).getD .null, function != .sum0⟩

end AggregateCall

end QueryPlan
