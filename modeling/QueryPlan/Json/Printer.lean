import QueryPlan.Json.Basic
/-!
Writing of JSON values as text without blanks.
-/
namespace QueryPlan.Json

/-- A hexadecimal digit. -/
def hexDigit (n : Nat) : Char := Char.ofNat (if n < 10 then '0'.toNat + n else 'a'.toNat + (n - 10))

/-- A character as it is written in a string. Quotes, backslashes and control characters are
escaped. -/
def escape (c : Char) : List Char :=
  if c = '"' ∨ c = '\\' then ['\\', c]
  else if c = '\n' then ['\\', 'n']
  else if c = '\r' then ['\\', 'r']
  else if c = '\t' then ['\\', 't']
  else if c.toNat < 0x20 then
    ['\\', 'u', '0', '0', hexDigit (c.toNat / 16), hexDigit (c.toNat % 16)]
  else [c]

/-- A text in quotes. -/
def quote (s : String) : String := String.ofList ('"' :: s.toList.flatMap escape ++ ['"'])

mutual

/-- The text of a value. A string that denotes no text is written as an empty one. -/
def render : Json → String
  | null => "null"
  | bool b => if b then "true" else "false"
  | number spelling => spelling
  | string s => quote (s.getD "")
  | array items => "[" ++ ",".intercalate (renderItems items) ++ "]"
  | object members => "\x7b" ++ ",".intercalate (renderMembers members) ++ "\x7d"

/-- Texts of the items of an array. -/
def renderItems : List Json → List String
  | [] => []
  | item :: items => render item :: renderItems items

/-- Texts of the members of an object. -/
def renderMembers : List (Option String × Json) → List String
  | [] => []
  | (name, value) :: members =>
    (quote (name.getD "") ++ ":" ++ render value) :: renderMembers members

end

end QueryPlan.Json
