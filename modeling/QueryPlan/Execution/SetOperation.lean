import QueryPlan.Value
/-!
Rows of unions, intersections and differences of any number of inputs.

Rows are compared as values. The output is made of the earliest occurrences, in their order; with
duplicates, an intersection has the least number of occurrences and a difference the number in the
first input less those in all others.
-/
namespace QueryPlan.Execution

/-- All rows in sequence, or the first of every group of equal rows. -/
def unionRows (all : Bool) (inputs : List (List Row)) : List Row :=
  if all then inputs.flatten else inputs.flatten.eraseDupsBy Row.same

/-- Different rows, each with a number. -/
abbrev Tally := List (Row × Nat)

namespace Tally

/-- The number of a row; zero if it has none. -/
def number (row : Row) : Tally → Nat
  | [] => 0
  | (r, n) :: tally => if row.same r then n else number row tally

/-- Counts a row once more. -/
def add (row : Row) : Tally → Tally
  | [] => [(row, 1)]
  | (r, n) :: tally => if row.same r then (r, n + 1) :: tally else (r, n) :: add row tally

/-- How often each row occurs in a list. -/
def ofRows (rows : List Row) : Tally := rows.foldl (fun tally row => tally.add row) []

/-- Gives a row another number, if it has one. -/
def set (row : Row) (number : Nat) : Tally → Tally
  | [] => []
  | (r, n) :: tally =>
    if row.same r then (r, number) :: tally else (r, n) :: set row number tally

/-- Numbers that are left after another input, by a rule for the two numbers of a row. -/
def reduce (leave : Nat → Nat → Nat) (tally other : Tally) : Tally :=
  tally.map fun (r, n) => (r, leave n (other.number r))

end Tally

/-- How many occurrences of a row an intersection has left after another input. -/
def commonNumber (n m : Nat) : Nat := Nat.min n m

/-- How many occurrences of a row a difference has left after another input. Without duplicates a row
that occurs in another input is dropped altogether. -/
def remainingNumber (all : Bool) (n m : Nat) : Nat :=
  if all then n - m else if 0 < m then 0 else n

/-- Emits the rows whose number is not used up; without duplicates one row uses up a number. -/
def emitRows (all : Bool) : Tally → List Row → List Row
  | _, [] => []
  | tally, row :: rows =>
    let n := tally.number row
    if 0 < n then row :: emitRows all (tally.set row (if all then n - 1 else 0)) rows
    else emitRows all tally rows

/-- Rows of the first input as often as the others leave them. -/
def reduceRows (all : Bool) (leave : Nat → Nat → Nat) : List (List Row) → List Row
  | [] => []
  | first :: others =>
    let tally := others.foldl (fun tally rows => tally.reduce leave (.ofRows rows)) (.ofRows first)
    emitRows all tally first

/-- Rows that occur in every input. -/
def intersectRows (all : Bool) (inputs : List (List Row)) : List Row :=
  reduceRows all commonNumber inputs

/-- Rows of the first input that are left when those of the others are taken away. -/
def minusRows (all : Bool) (inputs : List (List Row)) : List Row :=
  reduceRows all (remainingNumber all) inputs

end QueryPlan.Execution
