import PagedMachine.AddressSpace
import PagedMachine.Source

/-!
Text on a terminal, and tables of it. Log lines must not make a terminal act, so control characters that
start or make up commands are written out; and a colour command inside a table cell takes up no columns. A
cell may have several lines; it is padded to its column's width and to its row's height. There is a rule
under the titles and another one at the bottom.
-/

namespace PagedMachine.Text

-- The control characters below `U+0080` that terminals act on beyond moving to another line or column: bell,
-- backspace, form feed, escape and delete.
def terminalControls : List Char :=
  ['\x07', '\x08', '\x0c', '\x1b', '\x7f']

def isHighControl (c : Char) : Bool :=
  0x80 ≤ c.toNat && c.toNat ≤ 0x9f

def escapeChar (c : Char) : String :=
  if terminalControls.contains c then "\\x" ++ String.ofList (hexText 2 c.toNat)
  else if isHighControl c then
    "\\u\x7b" ++ String.ofList (Nat.toDigits 16 c.toNat) ++ "\x7d"
  else String.ofList [c]

def escape (s : String) : String :=
  if s.any fun c => terminalControls.contains c || isHighControl c then
    String.join (s.toList.map escapeChar)
  else s

-- How far a colour command, which is an escape, a bracket, parameters and an `m`, has been read.
inductive ColourState where
  | outside
  | escaped
  | inside
  deriving DecidableEq, Repr

-- Whether a character is a control character, which a colour command does not swallow.
def isControl (c : Char) : Bool :=
  c.toNat < 0x20 || c.toNat == 0x7f || isHighControl c

-- The number of columns of a text: one for each character, except for what a colour command has behind its
-- escape.
def columns : ColourState → List Char → Nat
  | _, [] => 0
  | .outside, c :: s => columns (if c = '\x1b' then .escaped else .outside) s + 1
  | .escaped, c :: s => if c = '[' then columns .inside s else columns .outside s + 1
  | .inside, c :: s =>
    columns (if c = 'm' then .outside else .inside) s + if isControl c then 1 else 0

def width (line : String) : Nat :=
  columns .outside line.toList

end PagedMachine.Text

namespace PagedMachine.Display

inductive Alignment where
  | left
  | right
  deriving DecidableEq, Repr

structure Column where
  title : String
  alignment : Alignment := .left

structure Table where
  columns : List Column
  rows : List (List String)

def cellLines (cell : String) : List String :=
  (Text.lines cell.toList).map String.ofList

def cellWidth (cell : String) : Nat :=
  (cellLines cell).foldl (fun n line => max n (Text.width line)) 0

def Table.widths (t : Table) : List Nat :=
  t.rows.foldl (fun widths row => List.zipWith max widths (row.map cellWidth))
    (t.columns.map fun c => cellWidth c.title)

def blanks (n : Nat) : String :=
  "".pushn ' ' n

def padded (alignment : Alignment) (width : Nat) (line : String) : String :=
  let fill := blanks (width - Text.width line)
  match alignment with
  | .left => " " ++ line ++ fill ++ " "
  | .right => " " ++ fill ++ line ++ " "

-- A row as lines of text. It has one line at least, also if all cells are empty.
def rowLines (alignments : List Alignment) (widths : List Nat) (row : List String) : List String :=
  let cells := row.map fun cell => (cellLines cell).toArray
  let height := cells.foldl (fun n lines => max n lines.size) 1
  (List.range height).map fun k =>
    let line := (alignments.zip (widths.zip cells)).map fun (alignment, width, lines) =>
      padded alignment width (lines[k]?.getD "")
    " " ++ "│".intercalate line ++ " "

def ruleLine (junction : String) (widths : List Nat) : String :=
  " " ++ junction.intercalate (widths.map fun width => "".pushn '─' (width + 2)) ++ " "

def Table.render (t : Table) : String :=
  let alignments := t.columns.map (·.alignment)
  let widths := t.widths
  let titles := rowLines alignments widths (t.columns.map (·.title))
  let body := t.rows.flatMap (rowLines alignments widths)
  let lines := titles ++ [ruleLine "┼" widths] ++ body ++ [ruleLine "┴" widths]
  String.join (lines.map (· ++ "\n"))

end PagedMachine.Display
