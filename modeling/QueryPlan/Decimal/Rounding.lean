/-!
Exact decimal rounding of quotients of naturals.

A positive number is given as numerator and denominator. The functions find its leading decimal
place and round it to a whole number of units of any power of ten, so that printing a double needs
no floating point arithmetic at all.
-/
namespace QueryPlan.Decimal

/-- Number of decimal digits of a natural, one for zero. -/
def width (n : Nat) : Nat := (Nat.toDigits 10 n).length

/-- The exponent `e` with `10 ^ e ≤ num / den < 10 ^ (e + 1)`, for a positive quotient that is not
a negative power of ten. -/
def leadingPlace (num den : Nat) : Int :=
  if den ≤ num then (width (num / den) : Int) - 1 else -(width (den / num) : Int)

/-- The quotient `num / den` in units of `10 ^ place`, again as numerator and denominator. -/
def inUnits (num den : Nat) (place : Int) : Nat × Nat :=
  (num * Nat.pow 10 (-place).toNat, den * Nat.pow 10 place.toNat)

/-- The natural nearest to `num / den`; of two that are equally near, the even one. -/
def roundHalfEven (num den : Nat) : Nat :=
  let quotient := num / den
  let twice := 2 * (num % den)
  if twice < den then quotient
  else if den < twice then quotient + 1
  else if quotient % 2 = 0 then quotient else quotient + 1

/-- A natural without its trailing zeros, and the power of ten they stood for. -/
def trimZeros : Nat → Nat → Int → Nat × Int
  | 0, digits, place => (digits, place)
  | fuel + 1, digits, place =>
    if digits ≠ 0 ∧ digits % 10 = 0 then trimZeros fuel (digits / 10) (place + 1)
    else (digits, place)

/-- A natural in decimal, padded on the left with zeros to at least the given width. -/
def padded (n wide : Nat) : String :=
  let text := toString n
  String.ofList (List.replicate (wide - text.length) '0') ++ text

end QueryPlan.Decimal
