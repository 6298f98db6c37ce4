/-!
Attributes of a node as text: names with values, in the order in which they are written.
-/
namespace QueryPlan

/-- Names with the texts of their values. -/
abbrev Attributes := List (String × String)

namespace Attributes

/-- One attribute that is only there under a condition. -/
def onlyIf (present : Bool) (name value : String) : Attributes :=
  if present then [(name, value)] else []

/-- Attributes as `name=value`, separated by commas. -/
def render (items : Attributes) : String :=
  ", ".intercalate (items.map fun (name, value) => name ++ "=" ++ value)

end Attributes

end QueryPlan
