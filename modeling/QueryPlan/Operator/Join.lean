import QueryPlan.Expr.Conjunction
/-!
Join types, and join conditions split into equal keys and the rest.
-/
namespace QueryPlan

/-- Which rows without a match a join keeps. -/
inductive JoinType where
  | inner
  | left
  | right
  | full
  deriving DecidableEq, Repr, Inhabited

namespace JoinType

def text : JoinType → String
  | inner => "inner"
  | left => "left"
  | right => "right"
  | full => "full"

/-- Whether left rows without a match are kept, padded with nulls on the right. -/
def padsRight : JoinType → Bool
  | left | full => true
  | _ => false

/-- Whether right rows without a match are kept, padded with nulls on the left. -/
def padsLeft : JoinType → Bool
  | right | full => true
  | _ => false

end JoinType

/-- Which left rows a correlate keeps and whether it joins them with right rows. -/
inductive CorrelateType where
  | inner
  | left
  | semi
  | anti
  deriving DecidableEq, Repr, Inhabited

namespace CorrelateType

def text : CorrelateType → String
  | inner => "inner"
  | left => "left"
  | semi => "semi"
  | anti => "anti"

/-- Whether the right columns are part of the output. -/
def projectsRight : CorrelateType → Bool
  | inner | left => true
  | _ => false

end CorrelateType

/-- A join condition taken apart. Right keys are ordinals of the right input. -/
structure JoinInfo where
  leftKeys : List Nat
  rightKeys : List Nat
  /-- Conjuncts that do not equate a left with a right column. -/
  others : List Expr

namespace JoinInfo

/-- Puts a conjunct in front: an equality of a left and a right column adds a pair of keys. -/
def addConjunct (leftCount : Nat) (conjunct : Expr) (equality : Option (Nat × Nat))
    (info : JoinInfo) : JoinInfo :=
  match equality with
  | some (a, b) =>
    if a < leftCount ∧ leftCount ≤ b then
      { info with leftKeys := a :: info.leftKeys, rightKeys := (b - leftCount) :: info.rightKeys }
    else if b < leftCount ∧ leftCount ≤ a then
      { info with leftKeys := b :: info.leftKeys, rightKeys := (a - leftCount) :: info.rightKeys }
    else { info with others := conjunct :: info.others }
  | none => { info with others := conjunct :: info.others }

/-- Takes a list of conjuncts apart. There is no answer if an equality lacks operands. -/
def ofConjuncts? (leftCount : Nat) : List Expr → Option JoinInfo
  | [] => some ⟨[], [], []⟩
  | c :: cs => do
    let equality ← c.columnEquality?
    let info ← ofConjuncts? leftCount cs
    some (info.addConjunct leftCount c equality)

/-- Takes a condition over left and right columns apart. -/
def of? (condition : Expr) (leftCount : Nat) : Option JoinInfo :=
  ofConjuncts? leftCount condition.conjuncts

/-- Whether the condition consists of key equalities only. -/
def isEqui (info : JoinInfo) : Bool := info.others.isEmpty

/-- The condition without its key equalities, `none` if nothing is left. -/
def remaining? (info : JoinInfo) : Option Expr := Expr.conjunction? info.others

end JoinInfo

end QueryPlan
