import QueryPlan.Metadata.Query
import QueryPlan.Json.Basic
/-!
Reading of domain objects from JSON values: outcomes, and the plain kinds of value.
-/
namespace QueryPlan.Interchange

/-- Why a request has no answer. -/
inductive Failure where
  /-- It is not in the form that its reader expects. -/
  | malformed
  | plan (error : PlanError)
  | query (error : QueryError)

/-- What is read, or why there is none. -/
abbrev Reading := Except Failure

/-- A value that is there, or else the request is malformed. -/
def need {α : Type} (value : Option α) : Reading α :=
  match value with
  | some a => .ok a
  | none => .error .malformed

/-- A value that is there, or else something is read beyond its end. -/
def inRange {α : Type} (value : Option α) : Reading α :=
  match value with
  | some a => .ok a
  | none => .error (.plan .outOfRange)

def ofPlan {α : Type} (outcome : Except PlanError α) : Reading α := outcome.mapError Failure.plan

/-- The member of that name. -/
def member (j : Json) (name : String) : Reading Json := need (j.member? name)

def readItems : Json → Reading (List Json)
  | .array items => .ok items
  | _ => .error .malformed

def readList {α : Type} (f : Json → Reading α) (j : Json) : Reading (List α) := do
  (← readItems j).mapM f

def readPair {α β : Type} (f : Json → Reading α) (g : Json → Reading β) :
    Json → Reading (α × β)
  | .array [a, b] => return (← f a, ← g b)
  | _ => .error .malformed

def readText : Json → Reading String
  | .string (some s) => .ok s
  | _ => .error .malformed

def readBool : Json → Reading Bool
  | .bool b => .ok b
  | _ => .error .malformed

def readInt : Json → Reading Int
  | .number spelling => need spelling.toInt?
  | _ => .error .malformed

def readNat (j : Json) : Reading Nat := do
  let n ← readInt j
  if 0 ≤ n then return n.toNat else throw .malformed

/-- A value or null. -/
def readOption {α : Type} (f : Json → Reading α) : Json → Reading (Option α)
  | .null => .ok none
  | j => some <$> f j

/-- A member that may be missing or null. -/
def optional {α : Type} (j : Json) (name : String) (f : Json → Reading α) : Reading (Option α) :=
  readOption f ((j.member? name).getD .null)

/-- A list in a member that may be missing or null. -/
def readListAt {α : Type} (j : Json) (name : String) (f : Json → Reading α) :
    Reading (List α) := do
  return (← optional j name (readList f)).getD []

def readNames (j : Json) : Reading (List String) := readList readText j

/-- A value given by its text. -/
def readNamed {α : Type} (name : α → String) (values : List α) (j : Json) : Reading α := do
  let text ← readText j
  need (values.find? (name · == text))

end QueryPlan.Interchange
