import QueryPlan.Interchange.Basic
import QueryPlan.Planner.Heuristic
import QueryPlan.Lattice.Draft
/-!
Rules, patterns, programs of the heuristic planner, methods and steps of lattices as JSON.
-/
namespace QueryPlan.Interchange

/-- A rule by its label, or a named list of rules. -/
def readRules (j : Json) : Reading (List Rule) := do
  match ← readText j with
  | "normalize" => return Rule.normalize
  | "leaf_join" => return Rule.leafJoin
  | label => return [← need (Rule.all.find? (·.label == label))]

/-- The rules of a member in sequence. -/
def readRulesAt (j : Json) (name : String) : Reading (List Rule) := do
  return (← readList readRules (← member j name)).flatten

def readProgram (j : Json) : Reading Program := do
  let order ← optional j "order" (readNamed MatchOrder.text [.bottomUp, .topDown])
  return ⟨← readRulesAt j "rules", order, ← optional j "max_iter" readNat⟩

def readTest (j : Json) : Reading OperatorTest :=
  readNamed OperatorTest.text [.any, .filter, .project, .join] j

mutual

/-- A pattern: a test alone, with the word `leaf`, or with patterns for the inputs. -/
def readPattern : Json → Reading Pattern
  | .array [test, .array inputs] => return .withInputs (← readTest test) (← readPatterns inputs)
  | .array [test, .string (some "leaf")] => return .leaf (← readTest test)
  | test => return .node (← readTest test)

/-- Patterns of a list. -/
def readPatterns : List Json → Reading (List Pattern)
  | [] => .ok []
  | p :: ps => return (← readPattern p) :: (← readPatterns ps)

end

/-- Methods after one of them is replaced: topic, kind and method are given by name. -/
def readMethod (m : Methods) : Json → Reading Methods
  | .array [.string (some topic), kind, .string (some method)] => do
    let kind ← need (Kind.ofText? (← readText kind))
    match topic, method with
    | "row_count", "self" => return { m with rowCount := m.rowCount.register kind .again }
    | "row_count", "seven" => return { m with rowCount := m.rowCount.register kind (.fixed 7.0) }
    | "row_count", "negative" =>
      return { m with rowCount := m.rowCount.register kind (.fixed (-3.0)) }
    | "collations", "self" => return { m with collations := m.collations.register kind .again }
    | "distinct", "self" => return { m with distinct := m.distinct.register kind .again }
    | "lineage", "self" => return { m with lineage := m.lineage.register kind .again }
    | "table_refs", "self" => return { m with tableRefs := m.tableRefs.register kind .again }
    | _, _ => throw .malformed
  | _ => .error .malformed

def readStep : Json → Reading Step
  | .array [source, target, keys] =>
    return ⟨← readNat source, ← readNat target, ← readList (readPair readNat readNat) keys⟩
  | _ => .error .malformed

end QueryPlan.Interchange
