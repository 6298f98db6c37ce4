import QueryPlan.Json.Basic
import QueryPlan.Decimal.Spelling
import QueryPlan.Decimal.Text
/-!
Values of the numbers in JSON: integers of 64 bits, and doubles made of their leading digits.
-/
namespace QueryPlan.Json

/-- Whether a spelling has neither fraction nor exponent. -/
def isWhole (spelling : String) : Bool :=
  !spelling.any fun c => c = '.' || c = 'e' || c = 'E'

/-- The integer that is spelled, if it fits 64 bits with or without a sign. Negative zero is no
integer. -/
def integer? (spelling : String) : Option Int := do
  guard (isWhole spelling)
  let (negative, cs) := Decimal.splitSign spelling.toList
  let magnitude ← Decimal.digits? cs
  if negative then
    guard (0 < magnitude ∧ magnitude ≤ Double.signBit)
    some (-(magnitude : Int))
  else
    guard (magnitude < UInt64.size)
    some (magnitude : Int)

/-- The number as a count of 64 bits without sign. -/
def count? : Json → Option Nat
  | number spelling => do
    let n ← integer? spelling
    guard (0 ≤ n)
    some n.toNat
  | _ => none

/-- The number as a double, if it does not exceed their range. -/
def double? : Json → Option Float
  | number spelling => Decimal.readScaled? spelling
  | _ => none

/-- A number as it is written again after it was read: an integer keeps its spelling, and a double
gets the shortest one. -/
def respelled (spelling : String) : String :=
  match integer? spelling with
  | some _ => spelling
  | none => ((Decimal.readScaled? spelling).map Decimal.shortestText).getD spelling

mutual

/-- Changes the spelling of every number in a value. -/
def mapNumbers (f : String → String) : Json → Json
  | number spelling => number (f spelling)
  | array items => array (mapItems f items)
  | object members => object (mapMembers f members)
  | j => j

/-- Changes the spelling of every number in the items of an array. -/
def mapItems (f : String → String) : List Json → List Json
  | [] => []
  | item :: items => mapNumbers f item :: mapItems f items

/-- Changes the spelling of every number in the members of an object. -/
def mapMembers (f : String → String) :
    List (Option String × Json) → List (Option String × Json)
  | [] => []
  | (name, value) :: members => (name, mapNumbers f value) :: mapMembers f members

end

end QueryPlan.Json
