/-!
Binary floating point numbers of 64 bits: their total order, their exact value as a signed
integer times a power of two, and the conversions to and from 64-bit integers.

Everything here but the exponential function computes on the bits or on exact integers, so each
definition can be unfolded in a proof. There is a single not-a-number, which the total order puts
above positive infinity.
-/
namespace QueryPlan.Double

/-- The mantissas of normal doubles start here and end before twice as much. -/
def leastNormal : Nat := Nat.pow 2 52

/-- Every integer of smaller magnitude is a double. -/
def exactLimit : Nat := Nat.pow 2 53

/-- The value of the sign bit among the bits of a double. -/
def signBit : Nat := Nat.pow 2 63

/-- Position of a double in the total order: negative numbers by falling magnitude, negative zero,
positive zero, positive numbers by rising magnitude. -/
def orderKey (d : Float) : Int :=
  let bits : Nat := d.toBits.toNat
  if bits < signBit then bits else (signBit : Int) - 1 - bits

/-- The total order of doubles. Unlike `<` it separates the two zeros and places every value. -/
def order (a b : Float) : Ordering := compare (orderKey a) (orderKey b)

/-- A finite double as an exact number: the mantissa times two to the exponent, with a sign that
is kept for zero as well. -/
structure Dyadic where
  negative : Bool
  mantissa : Nat
  exponent : Int
  deriving DecidableEq, Repr

/-- The exact value of a finite double, `none` for infinities and not-a-number. -/
def dyadic? (d : Float) : Option Dyadic :=
  let bits : Nat := d.toBits.toNat
  let negative := decide (signBit ≤ bits)
  let scale : Nat := bits / leastNormal % 2048
  let fraction : Nat := bits % leastNormal
  if scale = 2047 then none
  else if scale = 0 then some ⟨negative, fraction, -1074⟩
  else some ⟨negative, fraction + leastNormal, (scale : Int) - 1075⟩

/-- Whether the sign bit is set, which it never is for not-a-number. -/
def isNegative (d : Float) : Bool := decide (signBit ≤ d.toBits.toNat)

namespace Dyadic

/-- The magnitude as a quotient of naturals. -/
def numerator (x : Dyadic) : Nat := x.mantissa * Nat.pow 2 x.exponent.toNat

/-- The divisor that goes with `numerator`. -/
def denominator (x : Dyadic) : Nat := Nat.pow 2 (-x.exponent).toNat

/-- Whether the number is an integer. -/
def isIntegral (x : Dyadic) : Bool := x.numerator % x.denominator = 0

/-- The integer part, towards zero. -/
def truncate (x : Dyadic) : Int :=
  let magnitude : Nat := x.numerator / x.denominator
  if x.negative then -(magnitude : Int) else magnitude

/-- The greatest integer that is not above the number. -/
def floor (x : Dyadic) : Int :=
  if x.negative && !x.isIntegral then x.truncate - 1 else x.truncate

/-- The least integer that is not below the number. -/
def ceil (x : Dyadic) : Int :=
  if !x.negative && !x.isIntegral then x.truncate + 1 else x.truncate

end Dyadic

/-- The double nearest to a 64-bit integer. -/
def ofInt64 (i : Int64) : Float := Float.ofInt i.toInt

/-- The 64-bit integer nearest to an integer. -/
def clampInt64 (n : Int) : Int64 :=
  if n ≤ Int64.minValue.toInt then Int64.minValue
  else if Int64.maxValue.toInt ≤ n then Int64.maxValue
  else Int64.ofInt n

/-- Integer part of a double, clamped to 64 bits. Not-a-number becomes zero. -/
def toInt64 (d : Float) : Int64 :=
  match dyadic? d with
  | some x => clampInt64 x.truncate
  | none => if d.isNaN then 0 else if isNegative d then Int64.minValue else Int64.maxValue

/-- Whether a double is a finite integer. -/
def isIntegral (d : Float) : Bool :=
  match dyadic? d with
  | some x => x.isIntegral
  | none => false

/-- An integer as a double, a zero keeping the sign of the number it was rounded from. -/
def ofRounded (negative : Bool) (n : Int) : Float :=
  if n = 0 ∧ negative then -0.0 else Float.ofInt n

/-- The double's floor. Infinities and not-a-number are their own floor. -/
def floor (d : Float) : Float :=
  match dyadic? d with
  | some x => if x.isIntegral then d else ofRounded x.negative x.floor
  | none => d

/-- The double's ceiling. Infinities and not-a-number are their own ceiling. -/
def ceil (d : Float) : Float :=
  match dyadic? d with
  | some x => if x.isIntegral then d else ofRounded x.negative x.ceil
  | none => d

/-- The greater of two doubles, ignoring not-a-number where the other is a number. Of two zeros it
is the second one. -/
def max (a b : Float) : Float :=
  if a.isNaN then b else if b.isNaN then a else if b < a then a else b

/-- The lesser of two doubles, ignoring not-a-number where the other is a number. Of two zeros it is
the second one. -/
def min (a b : Float) : Float :=
  if a.isNaN then b else if b.isNaN then a else if a < b then a else b

/-- The greatest finite double. -/
def greatestFinite : Float := Float.ofBits 0x7fefffffffffffff

/-- Positive infinity. -/
def infinity : Float := Float.ofBits 0x7ff0000000000000

end QueryPlan.Double
