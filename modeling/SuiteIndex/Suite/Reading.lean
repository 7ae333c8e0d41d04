import SuiteIndex.Suite.Body
import SuiteIndex.Table.Segment

/-! # Reading suites

A suite is assembled table by table. Headers that name no known table are skipped,
and tables of one kind are merged.
-/

namespace SuiteIndex

namespace Table

inductive Kind where
  | settings
  | declarations
  | keywords
  | testCases
deriving DecidableEq

def Kind.names : List (Text × Kind) := [
  ("setting".toList, .settings), ("settings".toList, .settings),
  ("variable".toList, .declarations), ("variables".toList, .declarations),
  ("keyword".toList, .keywords), ("keywords".toList, .keywords),
  ("user keyword".toList, .keywords), ("user keywords".toList, .keywords),
  ("test case".toList, .testCases), ("test cases".toList, .testCases),
  ("testcase".toList, .testCases), ("testcases".toList, .testCases),
  ("task".toList, .testCases), ("tasks".toList, .testCases)]

def Kind.ofName? (name : Text) : Option Kind :=
  names.lookup (Text.lower (Text.trim name))

end Table

namespace VariablesTable

/-- The values of a variable of this kind: a scalar takes the first cell, a list
all of them, and a dictionary keeps its entries as plain text. Variables of the
environment are not declared. -/
def values? (cells : List Cell) : VariableKind → Option (List Expression)
  | .scalar => some (cells.head?.map Expression.ofCell).toList
  | .list => some (cells.map Expression.ofCell)
  | .dictionary => some (cells.map fun cell => .literal (.ofCell cell))
  | .environment => none

/-- The declaration of a statement; an indented statement declares nothing. -/
def declaration? (statement : Statement) : Option Declaration := do
  if !statement.startsFilled then none
  let name ← statement.filled.head?
  let target ← Target.ofCell? false name
  let values ← values? (statement.filled.drop 1) target.kind
  return ⟨target.id, target.kind, values, .parsed statement.span⟩

def ofTable (table : Table) : VariablesTable :=
  ⟨(Statement.ofRows .firstCell table.rows).filterMap declaration?, .parsed table.span⟩

end VariablesTable

/-- The second value merged into the first, if there is one. -/
def mergeWith {α : Type} (merge : α → α → α) : Option α → α → α
  | some a, b => merge a b
  | none, b => b

theorem mergeWith_map {α : Type} {merge : α → α → α} {move : α → α}
    (h : ∀ a b, merge (move a) (move b) = move (merge a b)) (a? : Option α) (b : α) :
    mergeWith merge (a?.map move) (move b) = move (mergeWith merge a? b) := by
  cases a? with
  | none => rfl
  | some a => exact h a b

namespace Suite

def addTable (moduleName : Text) (suite : Suite) (table : Table) : Except SourceError Suite :=
  match Table.Kind.ofName? table.name with
  | none => .ok suite
  | some .settings =>
    .ok { suite with settings? := some (mergeWith .merge suite.settings? (.ofTable table)) }
  | some .declarations =>
    .ok { suite with variables? := some (mergeWith .merge suite.variables? (.ofTable table)) }
  | some .keywords => do
    let read ← KeywordsTable.ofTable moduleName table
    return { suite with keywords? := some (mergeWith .merge suite.keywords? read) }
  | some .testCases => do
    let read ← TestCasesTable.ofTable table
    return { suite with testCases? := some (mergeWith .merge suite.testCases? read) }

/-- A suite spans all tables of its text, known or not; without tables it is a point
at the start. -/
def spanOf : List Table → Span
  | [] => .point ⟨0, 0⟩
  | table :: rest => rest.foldl (fun span table => span.cover table.span) table.span

def ofTables (moduleName : Text) (tables : List Table) : Except SourceError Suite :=
  tables.foldlM (addTable moduleName) (.empty (.parsed (spanOf tables)))

def read (moduleName text : Text) : Except SourceError Suite :=
  ofTables moduleName (Table.read text)

end Suite

end SuiteIndex
