import QueryPlan.DataType
/-!
Row types: what a relation's columns are called, which values they hold, and whether they admit
null.
-/
namespace QueryPlan

/-- One column of a row type. -/
structure Field where
  name : String
  dataType : DataType
  nullable : Bool
  deriving DecidableEq, Repr, Inhabited

namespace Field

/-- Name and type, then whether null is excluded. -/
def text (f : Field) : String :=
  f.name ++ " " ++ f.dataType.text ++ if f.nullable then "" else " NOT NULL"

/-- The field as the null-padded side of a join has it. -/
def padded (f : Field) (pads : Bool) : Field := { f with nullable := f.nullable || pads }

end Field

/-- Text comparison that ignores the case of ASCII letters. -/
def sameIgnoringCase (a b : String) : Bool := a.map Char.toLower == b.map Char.toLower

/-- Text comparison under a session's case sensitivity. -/
def sameName (caseSensitive : Bool) (a b : String) : Bool :=
  if caseSensitive then a == b else sameIgnoringCase a b

/-- The columns of a relation in order. -/
structure RowType where
  fields : List Field
  deriving DecidableEq, Repr, Inhabited

namespace RowType

/-- Number of columns. -/
def arity (t : RowType) : Nat := t.fields.length

def names (t : RowType) : List String := t.fields.map Field.name

/-- Same arity and column types; names and nullability are ignored. -/
def isCompatible (a b : RowType) : Bool :=
  a.fields.map Field.dataType == b.fields.map Field.dataType

/-- The first column of that name. -/
def indexOf? (t : RowType) (name : String) (caseSensitive : Bool) : Option Nat :=
  t.fields.findIdx? (sameName caseSensitive ·.name name)

/-- The fields separated by commas. -/
def text (t : RowType) : String := ", ".intercalate (t.fields.map Field.text)

/-- Columns of both sides of a join, those of a padded side admitting null. -/
def join (left right : RowType) (padsLeft padsRight : Bool) : RowType :=
  ⟨left.fields.map (·.padded padsLeft) ++ right.fields.map (·.padded padsRight)⟩

/-- A column that can hold the values of both columns, named like the first. -/
def widenField (a b : Field) : Option Field := do
  let dataType ← a.dataType.leastRestrictive b.dataType
  some ⟨a.name, dataType, a.nullable || b.nullable⟩

/-- Widens two lists of columns of one length position by position. -/
def widenFields : List Field → List Field → Option (List Field)
  | [], [] => some []
  | a :: as, b :: bs => do
    let f ← widenField a b
    let fs ← widenFields as bs
    some (f :: fs)
  | _, _ => none

/-- A row type that can hold the rows of both, with the names of the first. -/
def widen (a b : RowType) : Option RowType := (widenFields a.fields b.fields).map RowType.mk

/-- A row type that can hold the rows of every one of the given types, with the names of the
first. There is none if their arities differ or a position has no common type. -/
def leastRestrictive : List RowType → Option RowType
  | [] => none
  | t :: ts => ts.foldlM widen t

end RowType

end QueryPlan
