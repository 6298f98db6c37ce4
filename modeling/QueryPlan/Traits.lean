import QueryPlan.Collation
/-!
Physical traits of a relation: its calling convention, the order of its rows and how they are
spread over processes.

`satisfies` says that a relation with some traits can be used where others are asked for.
-/
namespace QueryPlan

/-- Calling convention. Logical relations have the convention `none`. -/
inductive Convention where
  | none
  | enumerable
  deriving DecidableEq, Repr, Inhabited

namespace Convention

def rank : Convention → Nat
  | none => 0
  | enumerable => 1

instance : Ord Convention := ⟨fun a b => compare a.rank b.rank⟩

def text : Convention → String
  | none => "NONE"
  | enumerable => "ENUMERABLE"

/-- The other convention. -/
def flip : Convention → Convention
  | none => enumerable
  | enumerable => none

/-- A convention serves only itself. -/
def satisfies (a b : Convention) : Bool := a = b

end Convention

/-- How rows are spread over the processes that produce them. With `hash`, rows that agree on the
keys are in one process. -/
inductive Distribution where
  | any
  | single
  | hash (keys : List Nat)
  | roundRobin
  | broadcast
  deriving DecidableEq, Repr, Inhabited

namespace Distribution

def rank : Distribution → Nat
  | any => 0
  | single => 1
  | hash _ => 2
  | roundRobin => 3
  | broadcast => 4

/-- Columns that decide where a row goes. -/
def keys : Distribution → List Nat
  | hash keys => keys
  | _ => []

instance : Ord Distribution :=
  ⟨fun a b => (compare a.rank b.rank).then (ColumnSet.order.compareLists a.keys b.keys)⟩

/-- Moves the keys by an offset. -/
def shift (offset : Int) : Distribution → Distribution
  | hash keys => hash (keys.map (shiftOrdinal offset))
  | d => d

/-- Every distribution serves where none is asked for, and else only itself. -/
def satisfies (a b : Distribution) : Bool := b = any || a = b

def text : Distribution → String
  | any => "any"
  | single => "single"
  | hash keys => "hash[" ++ ", ".intercalate (keys.map toString) ++ "]"
  | roundRobin => "rr"
  | broadcast => "broadcast"

end Distribution

/-- The physical traits of a relation. -/
structure Traits where
  convention : Convention
  collation : Collation
  distribution : Distribution
  deriving DecidableEq, Repr, Inhabited

namespace Traits

/-- Traits that say nothing but the convention. -/
def ofConvention (c : Convention) : Traits := ⟨c, .empty, .any⟩

/-- Traits satisfy others part by part. -/
def satisfies (a b : Traits) : Bool :=
  a.convention.satisfies b.convention && a.collation.satisfies b.collation &&
    a.distribution.satisfies b.distribution

instance : Ord Traits :=
  ⟨fun a b => (compare a.convention b.convention).then
    ((compare a.collation b.collation).then (compare a.distribution b.distribution))⟩

/-- Convention, collation and distribution separated by points. -/
def text (t : Traits) : String :=
  t.convention.text ++ "." ++ t.collation.text ++ "." ++ t.distribution.text

end Traits

end QueryPlan
