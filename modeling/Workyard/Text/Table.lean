import Workyard.Text.Columns
import Workyard.Text.Separated

/-!
# Tables

Rows of cells in a frame of lines with round corners, below a row of titles. A column is as
wide as its widest line; a cell may have several lines.
-/

namespace Workyard.Text

set_option autoImplicit false

/-- The lines of a cell. -/
abbrev Cell := List (List Char)

def cellOf (s : String) : Cell :=
  splitAt '\n' s.toList

def Cell.columns (c : Cell) : Nat :=
  (c.map Text.columns).foldl max 0

/-- The widths of the columns, of which there are `count`. -/
def columnWidths (count : Nat) (rows : List (List Cell)) : List Nat :=
  (List.range count).map fun i => (rows.map fun r => (r.getD i []).columns).foldl max 0

/-- A line between rows: its ends, and what crosses it. -/
def ruleLine (left cross right : Char) (widths : List Nat) : List Char :=
  left :: joinWith [cross] (widths.map fun w => List.replicate (w + 2) '─') ++ [right, '\n']

/-- A line of a cell filled up to a width, with a blank on either side. -/
def padded (width : Nat) (cs : List Char) : List Char :=
  ' ' :: cs ++ List.replicate (width - Text.columns cs + 1) ' '

/-- One line of a row. -/
def rowLine (widths : List Nat) (cells : List (List Char)) : List Char :=
  '│' :: joinWith ['│'] (List.zipWith padded widths cells) ++ ['│', '\n']

/-- A row, with as many lines as its highest cell has. -/
def rowText (widths : List Nat) (row : List Cell) : List Char :=
  let height := (row.map (·.length)).foldl max 0
  (List.range height).flatMap fun i => rowLine widths (row.map fun c => c.getD i [])

def table (titles : List String) (rows : List (List String)) : String :=
  let head := titles.map cellOf
  let body := rows.map fun r => r.map cellOf
  let widths := columnWidths titles.length (head :: body)
  String.ofList (ruleLine '╭' '┬' '╮' widths ++ rowText widths head ++
    ruleLine '├' '┼' '┤' widths ++ body.flatMap (rowText widths) ++
    ruleLine '╰' '┴' '╯' widths)

end Workyard.Text
