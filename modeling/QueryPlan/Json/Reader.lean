import QueryPlan.Json.Basic
/-!
Reading of JSON texts. A reader returns what it reads with the characters that follow.
-/
namespace QueryPlan.Json

def isSpace (c : Char) : Bool := c = ' ' || c = '\t' || c = '\n' || c = '\r'

def skipSpace (cs : List Char) : List Char := cs.dropWhile isSpace

/-- Drops a word from the front. -/
def dropWord? (word : List Char) (cs : List Char) : Option (List Char) :=
  if word.isPrefixOf cs then some (cs.drop word.length) else none

/-- Digits of an optional part that needs at least one. -/
def someDigits? (cs : List Char) : Option (List Char × List Char) :=
  match cs.takeWhile Char.isDigit with
  | [] => none
  | ds => some (ds, cs.dropWhile Char.isDigit)

/-- The whole part of a number: zero, or digits that do not start with one. -/
def wholePart? : List Char → Option (List Char × List Char)
  | '0' :: cs => some (['0'], cs)
  | cs => someDigits? cs

/-- The fraction of a number, if there is one. -/
def fraction? : List Char → Option (List Char × List Char)
  | '.' :: cs => (someDigits? cs).map fun (ds, rest) => ('.' :: ds, rest)
  | cs => some ([], cs)

/-- The exponent of a number, if there is one. -/
def exponent? : List Char → Option (List Char × List Char)
  | c :: cs =>
    if c = 'e' ∨ c = 'E' then
      match cs with
      | '+' :: cs => (someDigits? cs).map fun (ds, rest) => (c :: '+' :: ds, rest)
      | '-' :: cs => (someDigits? cs).map fun (ds, rest) => (c :: '-' :: ds, rest)
      | cs => (someDigits? cs).map fun (ds, rest) => (c :: ds, rest)
    else some ([], c :: cs)
  | [] => some ([], [])

/-- A number from its sign on. -/
def number? (cs : List Char) : Option (Json × List Char) := do
  let (sign, cs) := match cs with
    | '-' :: cs => (['-'], cs)
    | cs => ([], cs)
  let (whole, cs) ← wholePart? cs
  let (fraction, cs) ← fraction? cs
  let (exponent, cs) ← exponent? cs
  some (number (String.ofList (sign ++ whole ++ fraction ++ exponent)), cs)

/-- Value of a hexadecimal digit. -/
def hexDigit? (c : Char) : Option Nat :=
  if c.isDigit then some (c.toNat - '0'.toNat)
  else if 'a' ≤ c ∧ c ≤ 'f' then some (c.toNat - 'a'.toNat + 10)
  else if 'A' ≤ c ∧ c ≤ 'F' then some (c.toNat - 'A'.toNat + 10)
  else none

/-- Four hexadecimal digits. -/
def hexUnit? : List Char → Option (Nat × List Char)
  | a :: b :: c :: d :: rest => do
    let a ← hexDigit? a
    let b ← hexDigit? b
    let c ← hexDigit? c
    let d ← hexDigit? d
    some (((a * 16 + b) * 16 + c) * 16 + d, rest)
  | _ => none

/-- The character of an escape with one letter. -/
def escaped? : Char → Option Char
  | '"' => some '"'
  | '\\' => some '\\'
  | '/' => some '/'
  | 'b' => some '\x08'
  | 'f' => some '\x0c'
  | 'n' => some '\n'
  | 'r' => some '\r'
  | 't' => some '\t'
  | _ => none

/-- Whether a 16-bit unit is the first half of a surrogate pair. -/
def isHighUnit (u : Nat) : Bool := 0xd800 ≤ u && u < 0xdc00

/-- Whether a 16-bit unit is the second half of a surrogate pair. -/
def isLowUnit (u : Nat) : Bool := 0xdc00 ≤ u && u < 0xe000

/-- The characters of a string up to its closing quote, collected backwards. `none` in place of the
characters says that the string has denoted no text since half of a surrogate pair. -/
def stringBody? : Nat → Option (List Char) → List Char → Option (Option String × List Char)
  | 0, _, _ => none
  | fuel + 1, acc, cs =>
    match cs with
    | [] => none
    | '"' :: rest => some (acc.map fun text => String.ofList text.reverse, rest)
    | '\\' :: 'u' :: rest => do
      let (unit, rest) ← hexUnit? rest
      if isHighUnit unit then
        match rest with
        | '\\' :: 'u' :: rest' => do
          let (low, rest'') ← hexUnit? rest'
          if isLowUnit low then
            let c := Char.ofNat (0x10000 + (unit - 0xd800) * 0x400 + (low - 0xdc00))
            stringBody? fuel (acc.map (c :: ·)) rest''
          else stringBody? fuel none rest''
        | _ => stringBody? fuel none rest
      else if isLowUnit unit then stringBody? fuel none rest
      else stringBody? fuel (acc.map (Char.ofNat unit :: ·)) rest
    | '\\' :: c :: rest => do
      let c ← escaped? c
      stringBody? fuel (acc.map (c :: ·)) rest
    | c :: rest => if c.toNat < 0x20 then none else stringBody? fuel (acc.map (c :: ·)) rest

/-- A string after its opening quote. Fuel of one unit more than there are characters is enough. -/
def string? (fuel : Nat) (cs : List Char) : Option (Option String × List Char) :=
  stringBody? fuel (some []) cs

/-- Why a text holds no value. -/
inductive Fault where
  | malformed
  /-- An object has something else where a name should be. The characters are those from there
  on. -/
  | nameExpected (remaining : List Char)
  deriving DecidableEq, Repr

/-- What was read, or else the text is malformed. -/
def orMalformed {α : Type} : Option α → Except Fault α
  | some a => .ok a
  | none => .error .malformed

/-- Name of a member and the colon after it. Fuel of one unit for every character is enough. -/
def name? (fuel : Nat) : List Char → Except Fault (Option String × List Char)
  | [] => .error .malformed
  | '"' :: cs => do
    let (name, cs) ← orMalformed (string? fuel cs)
    match skipSpace cs with
    | ':' :: cs => return (name, cs)
    | _ => .error .malformed
  | cs => .error (.nameExpected cs)

/-- Fuel that is enough to read any value from characters. -/
def fuelFor (cs : List Char) : Nat := 2 * cs.length + 2

mutual

/-- One value, after blanks. Each step spends fuel, of which two units for every character are
enough. -/
def value? : Nat → List Char → Except Fault (Json × List Char)
  | 0, _ => .error .malformed
  | fuel + 1, cs =>
    match skipSpace cs with
    | '"' :: cs => orMalformed ((string? fuel cs).map fun (text, rest) => (string text, rest))
    | '[' :: cs =>
      match skipSpace cs with
      | ']' :: rest => .ok (array [], rest)
      | cs => (items? fuel cs).map fun (items, rest) => (array items, rest)
    | '\x7b' :: cs =>
      match skipSpace cs with
      | '\x7d' :: rest => .ok (object [], rest)
      | cs => (members? fuel cs).map fun (members, rest) => (object members, rest)
    | 'n' :: cs => orMalformed ((dropWord? ['u', 'l', 'l'] cs).map fun rest => (null, rest))
    | 't' :: cs => orMalformed ((dropWord? ['r', 'u', 'e'] cs).map fun rest => (bool true, rest))
    | 'f' :: cs =>
      orMalformed ((dropWord? ['a', 'l', 's', 'e'] cs).map fun rest => (bool false, rest))
    | cs => orMalformed (number? cs)

/-- The items of an array up to its closing bracket, at least one. -/
def items? : Nat → List Char → Except Fault (List Json × List Char)
  | 0, _ => .error .malformed
  | fuel + 1, cs => do
    let (item, cs) ← value? fuel cs
    match skipSpace cs with
    | ',' :: cs => (items? fuel cs).map fun (items, rest) => (item :: items, rest)
    | ']' :: rest => return ([item], rest)
    | _ => .error .malformed

/-- The members of an object up to its closing brace, at least one. -/
def members? : Nat → List Char → Except Fault (List (Option String × Json) × List Char)
  | 0, _ => .error .malformed
  | fuel + 1, cs => do
    let (name, cs) ← name? fuel (skipSpace cs)
    let (value, cs) ← value? fuel cs
    match skipSpace cs with
    | ',' :: cs => (members? fuel cs).map fun (ms, rest) => ((name, value) :: ms, rest)
    | '\x7d' :: rest => return ([(name, value)], rest)
    | _ => .error .malformed

end

/-- Reads a text that holds exactly one value. -/
def read? (text : String) : Option Json :=
  let cs := text.toList
  match value? (fuelFor cs) cs with
  | .ok (value, rest) => if (skipSpace rest).isEmpty then some value else none
  | .error _ => none

end QueryPlan.Json
