import QueryPlan.Config.Basic
import QueryPlan.Json.Number
import QueryPlan.Json.Printer
import QueryPlan.Json.Reader
/-!
Reading of a configuration from JSON.

A configuration is written as an object, in which missing members have their defaults and unknown
ones are ignored, or as an array of the same values in a fixed sequence. A member given twice is an
error. The text is read from front to back, and the first fault in it counts.
-/
namespace QueryPlan.Config

/-- Settings in the sequence in which an array lists them. -/
inductive Setting where
  | caseSensitive
  | matchOrder
  | maxIterations
  | materializationsEnabled
  | latticesEnabled
  | subsetRowCount
  deriving DecidableEq

namespace Setting

/-- Every setting in sequence. -/
def all : List Setting :=
  [caseSensitive, matchOrder, maxIterations, materializationsEnabled, latticesEnabled,
    subsetRowCount]

/-- Name of the member that holds a setting. -/
def name : Setting → String
  | caseSensitive => "case_sensitive"
  | matchOrder => "hep_match_order"
  | maxIterations => "hep_max_iter_times"
  | materializationsEnabled => "materializations_enabled"
  | latticesEnabled => "lattices_enabled"
  | subsetRowCount => "subset_row_count_default"

end Setting

/-- The line on which the remaining characters of a text start, and their column in bytes. -/
def position (text remaining : List Char) : Nat × Nat :=
  let before := text.take (text.length - remaining.length)
  let line := String.ofList (before.reverse.takeWhile (· ≠ '\n'))
  (before.countP (· = '\n') + 1, line.utf8ByteSize + 1)

/-- The fault of a configuration in a text with a fault in JSON. -/
def faultOf (text : List Char) : Json.Fault → ConfigFault
  | .malformed => .malformed
  | .nameExpected remaining =>
    let (line, column) := position text remaining
    .nameExpected line column

/-- What was read, or else the text is malformed. -/
def orMalformed {α : Type} : Option α → Except ConfigFault α
  | some a => .ok a
  | none => .error .malformed

/-- Reads the name of a member and the colon after it. -/
def readName (text cs : List Char) : Except ConfigFault (String × List Char) := do
  let (name, rest) ← (Json.name? cs.length (Json.skipSpace cs)).mapError (faultOf text)
  return (← orMalformed name, rest)

/-- Reads a value that does not matter. -/
def skipValue (text cs : List Char) : Except ConfigFault (List Char) := do
  let (_, rest) ← (Json.value? (Json.fuelFor cs) cs).mapError (faultOf text)
  return rest

/-- Reads a value of a kind. One of another kind is malformed, whatever is in it. -/
def readKind {α : Type} (kind? : Json → Option α) (cs : List Char) :
    Except ConfigFault (α × List Char) :=
  match Json.value? (Json.fuelFor cs) cs with
  | .error _ => .error .malformed
  | .ok (value, rest) => (orMalformed (kind? value)).map (·, rest)

/-- The value null. -/
def null? : Json → Option Unit
  | .null => some ()
  | _ => none

/-- The Boolean of a value. -/
def bool? : Json → Option Bool
  | .bool b => some b
  | _ => none

/-- The match order of a name. -/
def matchOrder? : Json → Option MatchOrder
  | .string (some name) => MatchOrder.ofText? name
  | _ => none

/-- Reads a match order: its name, or an object with a null member of that name and no other. -/
def readMatchOrder (text cs : List Char) : Except ConfigFault (MatchOrder × List Char) :=
  match Json.skipSpace cs with
  | '\x7b' :: cs => do
    if (Json.skipSpace cs).head? = some '\x7d' then .error .malformed
    let (name, cs) ← readName text cs
    let order ← orMalformed (MatchOrder.ofText? name)
    let ((), cs) ← readKind null? cs
    match Json.skipSpace cs with
    | '\x7d' :: rest => return (order, rest)
    | _ => .error .malformed
  | cs => readKind matchOrder? cs

/-- Reads the value of a setting. -/
def readSetting (text : List Char) (c : Config) (s : Setting) (cs : List Char) :
    Except ConfigFault (Config × List Char) :=
  match s with
  | .caseSensitive => do
    let (b, rest) ← readKind bool? cs
    return ({ c with caseSensitive := b }, rest)
  | .matchOrder => do
    let (order, rest) ← readMatchOrder text cs
    return ({ c with matchOrder := order }, rest)
  | .maxIterations => do
    let (n, rest) ← readKind Json.count? cs
    return ({ c with maxIterations := n }, rest)
  | .materializationsEnabled => do
    let (b, rest) ← readKind bool? cs
    return ({ c with materializationsEnabled := b }, rest)
  | .latticesEnabled => do
    let (b, rest) ← readKind bool? cs
    return ({ c with latticesEnabled := b }, rest)
  | .subsetRowCount => do
    let (d, rest) ← readKind Json.double? cs
    return ({ c with subsetRowCount := d }, rest)

/-- Reads the items of an array from the first one on, as values of the settings in sequence. There
are no more items than settings. -/
def readItems (text : List Char) :
    Config → List Setting → List Char → Except ConfigFault (Config × List Char)
  | _, [], _ => .error .malformed
  | c, s :: settings, cs => do
    let (c, cs) ← readSetting text c s cs
    match Json.skipSpace cs with
    | ',' :: cs => readItems text c settings cs
    | ']' :: rest => return (c, rest)
    | _ => .error .malformed

/-- Reads the members of an object from the first one on. `unread` are the settings that have not
been met, and the number bounds that of the members. -/
def readMembers (text : List Char) :
    Nat → Config → List Setting → List Char → Except ConfigFault (Config × List Char)
  | 0, _, _, _ => .error .malformed
  | count + 1, c, unread, cs => do
    let (name, cs) ← readName text cs
    let (c, unread, cs) ←
      match Setting.all.find? (·.name == name) with
      | none => do
        let cs ← skipValue text cs
        pure (c, unread, cs)
      | some s => do
        if !unread.contains s then .error .malformed
        let (c, cs) ← readSetting text c s cs
        pure (c, unread.erase s, cs)
    match Json.skipSpace cs with
    | ',' :: cs =>
      if (Json.skipSpace cs).head? = some '\x7d' then .error .malformed
      else readMembers text count c unread cs
    | '\x7d' :: rest => return (c, rest)
    | _ => .error .malformed

/-- Reads an array or an object of settings without checking their values. -/
def readSettings (text : List Char) : Except ConfigFault (Config × List Char) :=
  match Json.skipSpace text with
  | '\x7b' :: cs =>
    match Json.skipSpace cs with
    | '\x7d' :: rest => .ok ({}, rest)
    | cs => readMembers text text.length {} Setting.all cs
  | '[' :: cs =>
    match Json.skipSpace cs with
    | ']' :: rest => .ok ({}, rest)
    | cs => readItems text {} Setting.all cs
  | _ => .error .malformed

/-- Reads and checks a configuration. -/
def read (text : String) : Except ConfigFault Config := do
  let (c, rest) ← readSettings text.toList
  if !(Json.skipSpace rest).isEmpty then .error .malformed
  c.check
  return c

/-- Reads and checks a configuration that comes as a value, whose numbers have been read before. -/
def ofJson (j : Json) : Except ConfigFault Config := read (j.mapNumbers Json.respelled).render

end QueryPlan.Config
