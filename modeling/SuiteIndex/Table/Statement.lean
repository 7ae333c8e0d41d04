import SuiteIndex.Table.Cell

/-! # Statements

A statement is a row together with the rows that continue it. Empty rows do not
end a statement. A continuing row with nothing above it is dropped, and so is one
whose marker stands in the wrong place.
-/

namespace SuiteIndex

structure Statement where
  cells : List Cell
  span : Span
deriving DecidableEq

namespace Statement

def ofRow (row : Row) : Statement :=
  ⟨row.cells, row.span⟩

def extend (statement : Statement) (row : Row) : Statement :=
  ⟨statement.cells ++ row.continuation, statement.span.cover row.span⟩

def startsFilled (statement : Statement) : Bool :=
  match statement.cells with
  | cell :: _ => !cell.isEmpty
  | [] => false

def filled (statement : Statement) : List Cell :=
  statement.cells.filter (!·.isEmpty)

/-- The statements of the rows below `current`, the statement read so far. -/
def fold (style : Continuation) : Option Statement → List Row → List Statement
  | current, [] => current.toList
  | current, row :: rest =>
    if row.isEmpty then fold style current rest
    else if row.continues style then fold style (current.map (·.extend row)) rest
    else if row.hasMarker then fold style current rest
    else current.toList ++ fold style (some (ofRow row)) rest

def ofRows (style : Continuation) (rows : List Row) : List Statement :=
  fold style none rows

end Statement

end SuiteIndex
