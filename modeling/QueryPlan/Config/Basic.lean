import QueryPlan.Error
/-!
Configuration of a planning session.
-/
namespace QueryPlan

/-- Sequence in which a heuristic planner tries the nodes of a plan. -/
inductive MatchOrder where
  | bottomUp
  | topDown
  deriving DecidableEq, Repr, Inhabited

namespace MatchOrder

def text : MatchOrder → String
  | bottomUp => "BottomUp"
  | topDown => "TopDown"

/-- The order of that name. -/
def ofText? (t : String) : Option MatchOrder := [bottomUp, topDown].find? (·.text == t)

end MatchOrder

/-- Settings of a session. -/
structure Config where
  /-- Whether the case of letters matters in names of tables and columns. -/
  caseSensitive : Bool := true
  /-- Match order of planners that do not set their own. -/
  matchOrder : MatchOrder := .topDown
  /-- Greatest number of changes by planners that do not set their own. -/
  maxIterations : Nat := 1000
  materializationsEnabled : Bool := true
  latticesEnabled : Bool := true
  /-- Row count of a subset none of whose members has an estimate. -/
  subsetRowCount : Float := 1000000.0
  deriving Inhabited

namespace Config

/-- A session needs at least one iteration and a row count that is not negative. -/
def check (c : Config) : Except ConfigFault Unit :=
  if c.maxIterations = 0 then .error .noIterations
  else if c.subsetRowCount ≥ 0.0 then .ok ()
  else .error .negativeRowCount

end Config

end QueryPlan
