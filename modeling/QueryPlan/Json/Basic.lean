/-!
JSON values.

Numbers keep their spelling, since readers differ in what they make of one, and members keep their
order and their repetitions. A string may spell half of a surrogate pair; it is then well formed
without denoting a text.
-/
namespace QueryPlan

/-- A JSON value. -/
inductive Json where
  | null
  | bool (b : Bool)
  | number (spelling : String)
  | string (text : Option String)
  | array (items : List Json)
  | object (members : List (Option String × Json))
  deriving Inhabited

namespace Json

def ofText (s : String) : Json := string (some s)

def ofInt (n : Int) : Json := number (toString n)

def ofNat (n : Nat) : Json := number (toString n)

/-- An array of values. -/
def list {α : Type} (f : α → Json) (items : List α) : Json := array (items.map f)

/-- A value, or null for none. -/
def option {α : Type} (f : α → Json) (value : Option α) : Json := (value.map f).getD null

/-- An object with the given members. -/
def record (members : List (String × Json)) : Json :=
  object (members.map fun (name, value) => (some name, value))

/-- The first member of that name. -/
def member? (j : Json) (name : String) : Option Json :=
  match j with
  | object members => (members.find? fun m => m.1 == some name).map Prod.snd
  | _ => none

end Json

end QueryPlan
