/-!
Sets as strictly increasing lists under a given order. Of elements that compare as equal one stays:
the one that came first, or, in `latestOf`, the one that came last.

Lists are taken up from their end, so that one which is nearly sorted needs few comparisons.
-/
namespace QueryPlan.OrderedSet

/-- Puts an element at its place, unless an equal one is there. -/
def insert {α : Type} [Ord α] (x : α) : List α → List α
  | [] => [x]
  | y :: ys =>
    match compare x y with
    | .lt => x :: y :: ys
    | .eq => y :: ys
    | .gt => y :: insert x ys

/-- Puts an element at its place instead of an equal one. -/
def replace {α : Type} [Ord α] (x : α) : List α → List α
  | [] => [x]
  | y :: ys =>
    match compare x y with
    | .lt => x :: y :: ys
    | .eq => x :: ys
    | .gt => y :: replace x ys

/-- The set of the elements of a list. -/
def ofList {α : Type} [Ord α] (xs : List α) : List α := xs.foldr replace []

/-- The set of the elements of a list, of equal elements the last one. -/
def latestOf {α : Type} [Ord α] (xs : List α) : List α := xs.foldr insert []

/-- The elements of a set below an element, then the element, then what `rest` makes of those
above. An element that equals it is left out. -/
def mergeAt {α : Type} [Ord α] (x : α) (rest : List α → List α) : List α → List α
  | [] => x :: rest []
  | y :: ys =>
    match compare x y with
    | .lt => x :: rest (y :: ys)
    | .eq => x :: rest ys
    | .gt => y :: mergeAt x rest ys

/-- The elements of both sets. Of equal ones that of the first set stays. -/
def union {α : Type} [Ord α] : List α → List α → List α
  | [], ys => ys
  | x :: xs, ys => mergeAt x (union xs) ys

/-- Adds the elements of a list to a set. -/
def insertAll {α : Type} [Ord α] (set : List α) (xs : List α) : List α := union set (ofList xs)

end QueryPlan.OrderedSet
