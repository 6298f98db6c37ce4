import QueryPlan.Text.Width
/-!
Tables as text: cells aligned to the left with a blank on both sides, bars between and around
them, a rule of minus signs around every row and one of equals signs below the titles. A cell of
several lines makes its row as high.
-/
namespace QueryPlan.Grid

/-- A line without the carriage return at its end. -/
def withoutReturn (line : String) : String :=
  if line.endsWith "\r" then (line.dropEnd 1).toString else line

/-- The lines of a text. A line break at the end starts no further line. -/
def lines (text : String) : List String :=
  let parts := text.splitOn "\n"
  let last := parts.getLast?.getD ""
  parts.dropLast.map withoutReturn ++ if last.isEmpty then [] else [last]

/-- Blanks that fill a text up to a width. -/
def fill (width : Nat) (text : String) : String :=
  String.ofList (List.replicate (width - Text.columns text) ' ')

/-- One line of a row. -/
def line (widths : List Nat) (cells : List String) : String :=
  "|" ++ String.join ((cells.zip widths).map fun (cell, width) =>
    " " ++ cell ++ fill width cell ++ " |")

/-- The lines of a row, whose cells are lists of lines. -/
def row (widths : List Nat) (cells : List (List String)) : List String :=
  let height := cells.foldl (fun h cell => Nat.max h cell.length) 1
  (List.range height).map fun i => line widths (cells.map fun cell => cell[i]?.getD "")

/-- A line between rows. -/
def rule (widths : List Nat) (stroke : Char) : String :=
  "+" ++ String.join (widths.map fun width =>
    String.ofList (List.replicate (width + 2) stroke) ++ "+")

/-- Columns of the widest line of a cell. -/
def cellWidth (cell : List String) : Nat :=
  cell.foldl (fun w line => Nat.max w (Text.columns line)) 0

/-- Width of every column. -/
def widths (titles : List (List String)) (rows : List (List (List String))) : List Nat :=
  titles.zipIdx.map fun (title, i) =>
    rows.foldl (fun w row => Nat.max w ((row[i]?.map cellWidth).getD 0)) (cellWidth title)

/-- A table with titles. -/
def render (titles : List String) (rows : List (List String)) : String :=
  let titles := titles.map lines
  let rows := rows.map (List.map lines)
  let widths := widths titles rows
  let head := rule widths '-' :: row widths titles ++ [rule widths '=']
  let body := rows.flatMap fun cells => row widths cells ++ [rule widths '-']
  String.join ((head ++ body).map (· ++ "\n"))

end QueryPlan.Grid
