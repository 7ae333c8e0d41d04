import SuiteIndex.Text
import SuiteIndex.Position

/-! # Cells, rows and tables

A source text is a sequence of rows, a row a sequence of cells, and a table the
rows from one header to the next. Every cell knows the columns of its content in
the line it was read from.
-/

namespace SuiteIndex

/-- Trimmed text and the place it was read from. -/
structure Cell where
  content : Text
  span : Span
deriving DecidableEq

namespace Cell

def isEmpty (cell : Cell) : Bool :=
  cell.content.isEmpty

/-- The cell that marks a row as continuing the statement above it. -/
def isMarker (cell : Cell) : Bool :=
  cell.content = "...".toList

def location (cell : Cell) : Location :=
  .parsed cell.span

/-- The span of a range of characters inside the cell. -/
def part (cell : Cell) (first last : Nat) : Span :=
  Span.onLine cell.span.start.line (cell.span.start.column + first) (cell.span.start.column + last)

/-- From the first cell to the last, if there are any. -/
def range? (cells : List Cell) : Option Span :=
  match cells.head?, cells.getLast? with
  | some first, some last => some ⟨first.span.start, last.span.stop⟩
  | _, _ => none

/-- From a cell to the last of the cells behind it. -/
def reach (first : Cell) (rest : List Cell) : Location :=
  .parsed ⟨first.span.start, (rest.getLast?.getD first).span.stop⟩

def trimEmpty (cells : List Cell) : List Cell :=
  ((cells.dropWhile isEmpty).reverse.dropWhile isEmpty).reverse

end Cell

/-- Where the marker of a continuing row stands. -/
inductive Continuation where
  /-- In the first cell, as in tables of settings and variables. -/
  | firstCell
  /-- After the indentation, as in the bodies of keywords and test cases. -/
  | indented
deriving DecidableEq

/-- The cells of one line. -/
structure Row where
  cells : List Cell
  span : Span
deriving DecidableEq

namespace Row

/-- A row spans its cells; without cells it is a point at the start of its line. -/
def ofCells (line : Nat) (cells : List Cell) : Row :=
  ⟨cells, (Cell.range? cells).getD (.point ⟨line, 0⟩)⟩

def isEmpty (row : Row) : Bool :=
  row.cells.all Cell.isEmpty

/-- The first cell that is not empty, with its index. -/
def firstFilled? (row : Row) : Option (Nat × Cell) :=
  match row.cells.dropWhile Cell.isEmpty with
  | cell :: _ => some ((row.cells.takeWhile Cell.isEmpty).length, cell)
  | [] => none

def startsFilled (row : Row) : Bool :=
  match row.cells with
  | cell :: _ => !cell.isEmpty
  | [] => false

/-- A header opens a table: its first filled cell begins with a star. -/
def isHeader (row : Row) : Bool :=
  match row.firstFilled? with
  | some (_, cell) => Text.startsWith ['*'] cell.content
  | none => false

def hasMarker (row : Row) : Bool :=
  match row.firstFilled? with
  | some (_, cell) => cell.isMarker
  | none => false

/-- Whether the row continues the statement above it. -/
def continues (row : Row) : Continuation → Bool
  | .firstCell => match row.firstFilled? with
    | some (0, cell) => cell.isMarker
    | _ => false
  | .indented => match row.firstFilled? with
    | some (index, cell) => 0 < index && cell.isMarker
    | none => false

/-- The cells behind the marker of a continuing row. -/
def continuation (row : Row) : List Cell :=
  match row.cells.dropWhile Cell.isEmpty with
  | cell :: rest => if cell.isMarker then rest else []
  | [] => []

end Row

/-- A header and the rows below it. -/
structure Table where
  name : Text
  header : Row
  rows : List Row
deriving DecidableEq

namespace Table

/-- From the header to the last row that is not empty. -/
def span (table : Table) : Span :=
  match table.rows.reverse.find? (!·.isEmpty) with
  | some last => table.header.span.cover last.span
  | none => table.header.span

/-- The name a header gives: its text without stars and white space around it. -/
def nameOf (header : Row) : Text :=
  match header.firstFilled? with
  | some (_, cell) => Text.trimBy (fun c => c = '*' || Text.isBlank c) cell.content
  | none => []

/-- The rows above the first header, and the tables below it. -/
def collect : List Row → List Row × List Table
  | [] => ([], [])
  | row :: rest =>
    let (body, tables) := collect rest
    if row.isHeader then ([], ⟨nameOf row, row, body⟩ :: tables) else (row :: body, tables)

/-- The tables of a sequence of rows; rows above the first header are dropped. -/
def ofRows (rows : List Row) : List Table :=
  (collect rows).2

end Table

end SuiteIndex
