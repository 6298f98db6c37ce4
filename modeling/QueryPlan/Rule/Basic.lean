import QueryPlan.Rule.Pattern
import QueryPlan.Rule.Filter
import QueryPlan.Rule.Projection
/-!
Rules of the heuristic planner.

A rule has a pattern, and for a node of that pattern it offers an equivalent plan or none.
-/
namespace QueryPlan

/-- From which inputs of a join projections are pulled. -/
inductive JoinSides where
  | both
  | left
  | right
  deriving DecidableEq, Repr

namespace JoinSides

def hasLeft : JoinSides → Bool
  | right => false
  | _ => true

def hasRight : JoinSides → Bool
  | left => false
  | _ => true

def text : JoinSides → String
  | both => "both"
  | left => "left"
  | right => "right"

end JoinSides

/-- The rules. -/
inductive Rule where
  | filterProjectTranspose
  | projectMerge
  | projectRemove
  | filterMerge
  | filterIntoJoin
  | joinProjectTranspose (sides : JoinSides)
  deriving DecidableEq, Repr

namespace Rule

/-- Every rule. -/
def all : List Rule :=
  [filterProjectTranspose, projectMerge, projectRemove, filterMerge, filterIntoJoin,
    joinProjectTranspose .both, joinProjectTranspose .left, joinProjectTranspose .right]

/-- The name of a rule without its last word, which is put before the sides. -/
def parts : Rule → String × String
  | filterProjectTranspose => ("FilterProjectTranspose", "")
  | projectMerge => ("ProjectMerge", "")
  | projectRemove => ("ProjectRemove", "")
  | filterMerge => ("FilterMerge", "")
  | filterIntoJoin => ("FilterIntoJoin", "")
  | joinProjectTranspose sides => ("JoinProjectTranspose", "(" ++ sides.text ++ ")")

/-- Full name of a rule. -/
def name (rule : Rule) : String := rule.parts.1 ++ "Rule" ++ rule.parts.2

/-- Short name of a rule, by which it is asked for. -/
def label (rule : Rule) : String := rule.parts.1 ++ rule.parts.2

/-- A projection on a wanted side, anything on the other one. -/
def sidePattern (wanted : Bool) : Pattern := if wanted then .node .project else .node .any

/-- The shape of plan that a rule applies to. -/
def pattern : Rule → Pattern
  | filterProjectTranspose => .withInputs .filter [.node .project]
  | projectMerge => .withInputs .project [.node .project]
  | projectRemove => .node .project
  | filterMerge => .withInputs .filter [.node .filter]
  | filterIntoJoin => .withInputs .filter [.node .join]
  | joinProjectTranspose sides =>
    .withInputs .join [sidePattern sides.hasLeft, sidePattern sides.hasRight]

/-- The plan that a rule offers for a node of its pattern. -/
def offer : Rule → NodeId → Planning (Option NodeId)
  | filterProjectTranspose => Filter.belowProjection
  | projectMerge => Projection.merge
  | projectRemove => Projection.removeIdentity
  | filterMerge => Filter.merge
  | filterIntoJoin => Filter.intoJoin
  | joinProjectTranspose sides => Projection.aboveJoin sides.hasLeft sides.hasRight

/-- Whether the plan under a node has the shape that a rule applies to. -/
def accepts (rule : Rule) (c : Cluster) (id : NodeId) : Bool := rule.pattern.accepts c id

/-- Filters move below projections, adjacent projections are merged and identities dropped. Queries
and defining queries of views are brought to this form before they are compared. -/
def normalize : List Rule := [filterProjectTranspose, projectMerge, projectRemove]

/-- Projections move above joins and filters into and below them, so that a tree of joins reads as
joins over scans. -/
def leafJoin : List Rule :=
  [joinProjectTranspose .both, joinProjectTranspose .left, joinProjectTranspose .right,
    filterIntoJoin, projectRemove, projectMerge]

end Rule

end QueryPlan
