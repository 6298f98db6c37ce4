import QueryPlan.Double
import QueryPlan.Decimal.Rounding
/-!
The fewest decimal digits that read back as a given double.

A double stands for the interval of reals that round to it, the ends belonging to it exactly if the
mantissa is even. For one digit, two digits and so on up to seventeen, the two multiples of the
power of ten around the value are tested against that interval in exact arithmetic. The first
power of ten with a multiple inside wins; of two the nearer one, and of two equally near the
greater one.
-/
namespace QueryPlan.Decimal

/-- The reals that round to a positive double, in quarters of its last binary place: a lower end,
the value itself, an upper end, and whether the ends belong to the interval. -/
structure Roundings where
  low : Nat
  value : Nat
  high : Nat
  closed : Bool

/-- The lower neighbour of a power of two is only half as far away as the upper one. -/
def Roundings.of (x : Double.Dyadic) : Roundings :=
  let value := 4 * x.mantissa
  let below := if x.mantissa = Double.leastNormal ∧ -1074 < x.exponent then 1 else 2
  ⟨value - below, value, value + 2, x.mantissa % 2 = 0⟩

/-- Whether `candidate` units lie in the interval, one unit being `den / num` quarters. -/
def Roundings.holds (r : Roundings) (num den candidate : Nat) : Bool :=
  let scaled := candidate * den
  if r.closed then r.low * num ≤ scaled ∧ scaled ≤ r.high * num
  else r.low * num < scaled ∧ scaled < r.high * num

/-- The multiple of `10 ^ place` nearest to the value among its two neighbours in the interval. -/
def Roundings.nearest? (r : Roundings) (num den : Nat) : Option Nat :=
  let below := r.value * num / den
  let above := below + 1
  match r.holds num den below, r.holds num den above with
  | false, false => none
  | true, false => some below
  | false, true => some above
  | true, true =>
    if r.value * num - below * den < above * den - r.value * num then some below else some above

/-- Tries ever finer powers of ten. -/
def Roundings.search (r : Roundings) (num den : Nat) (place : Int) : Nat → Nat × Int
  | 0 =>
    let (n, d) := inUnits num den place
    (r.value * n / d, place)
  | fuel + 1 =>
    let (n, d) := inUnits num den place
    match r.nearest? n d with
    | some digits => (digits, place)
    | none => r.search num den (place - 1) fuel

/-- Shortest decimal of a positive finite double: an integer that does not end in a zero, and the
power of ten it counts. -/
def shortest (x : Double.Dyadic) : Nat × Int :=
  let r := Roundings.of x
  let quarter := x.exponent - 2
  let num := Nat.pow 2 quarter.toNat
  let den := Nat.pow 2 (-quarter).toNat
  let place := leadingPlace (r.value * num) den
  -- Seventeen digits tell any two doubles apart, so the search ends within them.
  let (digits, place) := r.search num den place 17
  trimZeros 400 digits place

end QueryPlan.Decimal
