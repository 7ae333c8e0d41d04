import SuiteIndex.Suite.Setting

/-! # Reading keywords and test cases

In a table of functions a row whose first cell is filled opens a function, and
indented rows add settings and steps to the function above them. Rows above the
first function are dropped.
-/

namespace SuiteIndex

namespace Step

def isTarget (cell : Cell) : Bool :=
  (Target.ofCell? false cell).isSome

/-- Read a step. If its first cell is a target, the call behind the targets is
assigned to it; further targets are dropped. -/
def ofCells? : List Cell → Option Step
  | [] => none
  | first :: rest =>
    let location := Cell.reach first rest
    match Target.ofCell? false first with
    | some target =>
      let values := Call.embed (Call.ofCells? (rest.dropWhile isTarget))
      some ⟨.declaration ⟨target.id, target.kind, values, location⟩, location⟩
    | none => (Call.ofCells? (first :: rest)).map fun call => ⟨.call call, location⟩

end Step

/-- What keywords and test cases have in common. -/
class Function (F : Type) where
  accepted : List Setting
  named : Identifier → F
  apply : F → Setting → List Cell → F × Option SourceError
  addStep : F → Step → F
  widen : F → Span → F

instance : Function UserKeyword where
  accepted := Setting.ofKeyword
  named := .named
  apply := UserKeyword.apply
  addStep keyword step := { keyword with steps := keyword.steps ++ [step] }
  widen keyword span := { keyword with location := keyword.location.cover (.parsed span) }

instance : Function TestCase where
  accepted := Setting.ofTestCase
  named := .named
  apply := TestCase.apply
  addStep testCase step := { testCase with steps := testCase.steps ++ [step] }
  widen testCase span := { testCase with location := testCase.location.cover (.parsed span) }

namespace Function

variable {F : Type} [Function F]

/-- Take in a statement that fills `span` and has the cells `first :: rest`. A
setting the function does not accept is a step like any other. -/
def addStatement (function : F) (span : Span) (first : Cell) (rest : List Cell) :
    Except SourceError F :=
  let function := widen function span
  match (Setting.ofContent? first.content).filter (accepted F).contains with
  | some setting => match apply function setting (first :: rest) with
    | (changed, none) => .ok changed
    | (_, some cause) => .error cause
  | none => .ok ((Step.ofCells? (first :: rest)).elim function (addStep function))

/-- Take in the cells of a body, if any are filled and there is a function. -/
def addBody (function? : Option F) (span : Span) (cells : List Cell) :
    Except SourceError (Option F) :=
  match function?, Cell.trimEmpty cells with
  | some function, first :: rest => (addStatement function span first rest).map some
  | _, _ => .ok function?

/-- The functions of the statements below `current`, the function read so far. -/
def fold (name : Cell → Identifier) : Option F → List Statement → Except SourceError (List F)
  | current, [] => .ok current.toList
  | current, statement :: rest =>
    if statement.startsFilled then do
      let opened := statement.cells.head?.map fun cell => named (name cell)
      let next ← addBody opened statement.span (statement.cells.drop 1)
      return current.toList ++ (← fold name next rest)
    else do
      let next ← addBody current statement.span statement.cells
      fold name next rest

def ofTable (name : Cell → Identifier) (table : Table) : Except SourceError (List F) :=
  fold name none (Statement.ofRows .indented table.rows)

end Function

/-- The name of a declared keyword, qualified by its module if that has a name. -/
def Identifier.declared (moduleName : Text) (id : Identifier) : Identifier :=
  if moduleName.isEmpty then id else { id with qualifier := some moduleName }

def KeywordsTable.ofTable (moduleName : Text) (table : Table) :
    Except SourceError KeywordsTable := do
  let keywords ← Function.ofTable (fun cell => .declared moduleName (.plain cell)) table
  return ⟨keywords, .parsed table.span⟩

def TestCasesTable.ofTable (table : Table) : Except SourceError TestCasesTable := do
  let testCases ← Function.ofTable .plain table
  return ⟨testCases, .parsed table.span⟩

end SuiteIndex
