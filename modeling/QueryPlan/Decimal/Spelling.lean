import QueryPlan.Double
import QueryPlan.Decimal.Rounding
/-!
Reading of decimals.

A decimal is taken apart into the digits on both sides of its point and its exponent. There are two
ways to make a double of them. `Spelling.nearest` rounds the exact value once. `Spelling.scaled?`
rounds the leading digits, as many as fit 64 bits, and scales them in floating point, so its
result may be a neighbour of the nearest double, and a value near the end of the range may have
none.
-/
namespace QueryPlan.Decimal

/-- Value of a decimal digit. -/
def digitValue (c : Char) : Nat := c.toNat - '0'.toNat

/-- Value of a list of decimal digits, `none` if one is no digit. -/
def digits? (cs : List Char) : Option Nat :=
  cs.foldl
    (fun acc c => acc.bind fun n => if c.isDigit then some (n * 10 + digitValue c) else none)
    (some 0)

/-- An optional sign, then what follows it. -/
def splitSign : List Char → Bool × List Char
  | '-' :: cs => (true, cs)
  | '+' :: cs => (false, cs)
  | cs => (false, cs)

/-- The part before the first character that satisfies the test, and the part after it. -/
def splitFirst (test : Char → Bool) (cs : List Char) : List Char × Option (List Char) :=
  match cs.dropWhile (!test ·) with
  | [] => (cs, none)
  | _ :: rest => (cs.takeWhile (!test ·), some rest)

/-- Digits of an optional part: zero if the part is absent. -/
def exponent? : Option (List Char) → Option Int
  | none => some 0
  | some cs =>
    let (negative, cs) := splitSign cs
    if cs.isEmpty then none
    else (digits? cs).map fun n => if negative then -(n : Int) else n

/-- An unsigned decimal: its digits before and after the point, and the power of ten that they are
multiplied by. -/
structure Spelling where
  whole : List Char
  fraction : List Char
  exponent : Int
  deriving DecidableEq, Repr

/-- A double with a sign. -/
def withSign (negative : Bool) (d : Float) : Float := if negative then -d else d

namespace Spelling

/-- Takes a decimal with an optional fraction and exponent apart. One of its two lists of digits
may be empty. -/
def of? (cs : List Char) : Option Spelling := do
  let (base, power) := splitFirst (fun c => c = 'e' || c = 'E') cs
  let (whole, fraction) := splitFirst (· = '.') base
  let fraction := fraction.getD []
  guard !(whole.isEmpty && fraction.isEmpty)
  guard ((whole ++ fraction).all Char.isDigit)
  some ⟨whole, fraction, ← exponent? power⟩

/-- Value of the digits on both sides of the point together. -/
def digits (s : Spelling) : Nat :=
  (s.whole ++ s.fraction).foldl (fun n c => n * 10 + digitValue c) 0

/-- The nearest double. -/
def nearest (s : Spelling) : Float :=
  let place := s.exponent - (s.fraction.length : Int)
  -- Far outside the range of doubles the digits no longer matter.
  if s.digits = 0 then 0.0
  else if 400 < place + (width s.digits : Int) then Double.infinity
  else if place + (width s.digits : Int) < -400 then 0.0
  else Float.ofScientific s.digits (decide (place < 0)) place.natAbs

/-- Appends digits to a natural while the result fits 64 bits. Returns also the digits from the
first one on that did not fit. -/
def append : Nat → List Char → Nat × List Char
  | n, [] => (n, [])
  | n, c :: cs =>
    let next := n * 10 + digitValue c
    if next < UInt64.size then append next cs else (n, c :: cs)

/-- The leading digits that fit 64 bits, and the power of ten they are multiplied by. A digit
before the point that does not fit still counts as a place. -/
def significand (s : Spelling) : Nat × Int :=
  let (n, dropped) := append 0 s.whole
  let (n, ignored) := append n s.fraction
  let places := s.fraction.length - ignored.length
  (n, s.exponent + (dropped.length : Int) - (places : Int))

/-- Greatest exponent of a power of ten that is a finite double. -/
def greatestPower : Nat := 308

/-- A power of ten. -/
def powerOfTen (places : Nat) : Float := Float.ofScientific 1 false places

/-- A double divided by a power of ten, by the greatest finite one as often as it takes. -/
def divided (d : Float) (places : Nat) : Float :=
  if places ≤ greatestPower then d / powerOfTen places
  else if d == 0.0 then d
  else divided (d / powerOfTen greatestPower) (places - greatestPower)
termination_by places
decreasing_by simp only [greatestPower] at *; omega

/-- The leading digits as a double, scaled by one multiplication or by divisions. There is no
result if it is not finite or if a power of ten that multiplies it is not. -/
def scaled? (s : Spelling) : Option Float := do
  let (n, place) := s.significand
  let d := n.toUInt64.toFloat
  if place < 0 then some (divided d place.natAbs)
  else if d == 0.0 then some d
  else
    guard (place.natAbs ≤ greatestPower)
    let product := d * powerOfTen place.natAbs
    guard !product.isInf
    some product

end Spelling

/-- Reads a decimal as the nearest double, or else `inf`, `-inf` or `NaN`. -/
def read? (text : String) : Option Float :=
  let (negative, cs) := splitSign text.toList
  let magnitude :=
    if cs = "inf".toList then some Double.infinity
    else if cs = "NaN".toList then some (Float.ofBits 0x7ff8000000000000)
    else (Spelling.of? cs).map Spelling.nearest
  magnitude.map (withSign negative)

/-- Reads a decimal through its leading digits, if it stays within the range of doubles. -/
def readScaled? (text : String) : Option Float := do
  let (negative, cs) := splitSign text.toList
  let magnitude ← (← Spelling.of? cs).scaled?
  some (withSign negative magnitude)

end QueryPlan.Decimal
