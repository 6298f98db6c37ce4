import QueryPlan.Decimal.Shortest
/-!
Texts of doubles: the shortest text that reads back as the same double, a scientific text with a
fixed number of significant digits, and a text with a fixed number of decimal places.
-/
namespace QueryPlan.Decimal

/-- Digits of an integer with a point after the first, none if there is only one digit. -/
def scientificDigits (digits : String) : String :=
  match digits.toList with
  | [] => ""
  | [c] => String.singleton c
  | c :: rest => String.ofList (c :: '.' :: rest)

/-- `digits` times ten to `place` without an exponent and with at least one decimal place. -/
def positional (digits : Nat) (place : Int) : String :=
  if 0 ≤ place then toString (digits * Nat.pow 10 place.toNat) ++ ".0"
  else
    let places := (-place).toNat
    let unit := Nat.pow 10 places
    toString (digits / unit) ++ "." ++ padded (digits % unit) places

/-- `digits` times ten to `place` with one digit before the point and an exponent. -/
def scientific (digits : Nat) (place : Int) : String :=
  let text := toString digits
  scientificDigits text ++ "e" ++ toString (place + (text.length : Int) - 1)

/-- Text of what is not a finite double. -/
def specialText (d : Float) : String :=
  if d.isNaN then "NaN" else if Double.isNegative d then "-inf" else "inf"

/-- The sign of a text. -/
def signed (negative : Bool) (text : String) : String := if negative then "-" ++ text else text

/-- The shortest text that reads back as the same double. Zero and magnitudes from `1e-4` up to
`1e16` are written without an exponent and with a decimal place, all others with an exponent. -/
def shortestText (d : Float) : String :=
  match Double.dyadic? d with
  | none => specialText d
  | some x =>
    if x.mantissa = 0 then signed x.negative "0.0"
    else
      let (digits, place) := shortest x
      let leading := place + (width digits : Int) - 1
      signed x.negative <|
        if -4 ≤ leading ∧ leading < 16 then positional digits place else scientific digits place

/-- Scientific text with `places` digits after the point, ties going to the even digit. -/
def scientificText (places : Nat) (d : Float) : String :=
  match Double.dyadic? d with
  | none => specialText d
  | some x =>
    signed x.negative <|
      if x.mantissa = 0 then scientificDigits (padded 0 (places + 1)) ++ "e0"
      else
        let leading := leadingPlace x.numerator x.denominator
        let place := leading - places
        let (num, den) := inUnits x.numerator x.denominator place
        let digits := roundHalfEven num den
        -- Rounding up may carry into one more digit, which is then a zero at the end.
        if width digits ≤ places + 1 then scientific digits place
        else scientific (digits / 10) (place + 1)

/-- Text with one decimal place, ties going to the even digit. -/
def onePlaceText (d : Float) : String :=
  match Double.dyadic? d with
  | none => specialText d
  | some x =>
    let tenths := roundHalfEven (x.numerator * 10) x.denominator
    signed x.negative (toString (tenths / 10) ++ "." ++ toString (tenths % 10))

/-- An estimate has twelve significant digits. -/
def estimateText (d : Float) : String := scientificText 11 d

end QueryPlan.Decimal
