import SuiteIndex.Error
import SuiteIndex.Suite.Basic
import SuiteIndex.Suite.Call
import SuiteIndex.Table.Statement

/-! # Reading settings

Settings stand in brackets in the body of a keyword or a test case, and without
brackets in the settings table. In both places a repeated setting replaces the
earlier one, while imports add up.
-/

namespace SuiteIndex

def Documentation.ofCells (name : Cell) (values : List Cell) : Documentation where
  id := .plain name
  value := ⟨Text.join [' '] (values.map Cell.content),
    .parsed ((Cell.range? values).getD (.point name.span.stop))⟩
  location := Cell.reach name values

def Arguments.ofCells (name : Cell) (values : List Cell) : Arguments where
  id := .plain name
  values := values.filterMap fun cell => (Target.ofCell? true cell).map Target.toDeclaration
  location := Cell.reach name values

def Returned.ofCells (name : Cell) (values : List Cell) : Returned where
  id := .plain name
  values := values.map Expression.ofCell
  location := Cell.reach name values

def Timeout.ofCells (name : Cell) (values : List Cell) : Timeout where
  id := .plain name
  value := values[0]?.map Literal.ofCell
  message := values[1]?.map Literal.ofCell
  location := Cell.reach name values

def Hook.ofCells (name : Cell) (values : List Cell) : Hook where
  id := .plain name
  keyword := Call.ofCells? values
  location := Cell.reach name values

def Tags.ofCells (name : Cell) (values : List Cell) : Tags where
  id := .plain name
  values := values.map Literal.ofCell
  location := Cell.reach name values

def TemplateSetting.ofCells (name : Cell) (values : List Cell) : TemplateSetting where
  id := .plain name
  keyword := values.head?.map Identifier.ofCell
  location := Cell.reach name values

def SuiteHook.ofCells (name : Cell) (values : List Cell) : SuiteHook where
  name := .plain name
  value := Call.ofCells? values
  location := Cell.reach name values

inductive Setting where
  | documentation
  | arguments
  | returned
  | timeout
  | setup
  | teardown
  | template
  | tags
deriving DecidableEq

namespace Setting

def label : Setting → Text
  | documentation => "Documentation".toList
  | arguments => "Arguments".toList
  | returned => "Return".toList
  | timeout => "Timeout".toList
  | setup => "Setup".toList
  | teardown => "Teardown".toList
  | template => "Template".toList
  | tags => "Tags".toList

/-- The names of settings, in lower case; two of them have an older second name. -/
def names : List (Text × Setting) := [
  ("documentation".toList, documentation),
  ("arguments".toList, arguments),
  ("return".toList, returned),
  ("timeout".toList, timeout),
  ("setup".toList, setup),
  ("precondition".toList, setup),
  ("teardown".toList, teardown),
  ("postcondition".toList, teardown),
  ("template".toList, template),
  ("tags".toList, tags)]

/-- The setting that a bracketed cell names, whatever its case. -/
def ofContent? (content : Text) : Option Setting :=
  match content with
  | '[' :: rest =>
    if rest.getLast? = some ']' then names.lookup (Text.lower (Text.trim rest.dropLast)) else none
  | _ => none

def ofKeyword : List Setting := [documentation, arguments, returned, timeout, teardown, tags]

def ofTestCase : List Setting := [documentation, setup, teardown, template, timeout, tags]

end Setting

/-- Give a keyword a setting. The result is the keyword as it then is and, if the setting is
refused, the reason. Missing cells are noticed before a foreign setting. -/
def UserKeyword.apply (keyword : UserKeyword) (setting : Setting) :
    List Cell → UserKeyword × Option SourceError
  | [] => (keyword, some (.emptySetting setting.label "keyword".toList))
  | name :: values => match setting with
    | .documentation => ({ keyword with documentation := some (.ofCells name values) }, none)
    | .arguments => ({ keyword with arguments := some (.ofCells name values) }, none)
    | .returned => ({ keyword with returned := some (.ofCells name values) }, none)
    | .timeout => ({ keyword with timeout := some (.ofCells name values) }, none)
    | .teardown => ({ keyword with teardown := some (.ofCells name values) }, none)
    | .tags => ({ keyword with tags := some (.ofCells name values) }, none)
    | .setup | .template =>
      (keyword, some (.unexpectedSetting setting.label "keyword".toList name.span.start.line))

def TestCase.apply (testCase : TestCase) (setting : Setting) :
    List Cell → TestCase × Option SourceError
  | [] => (testCase, some (.emptySetting setting.label "test case".toList))
  | name :: values => match setting with
    | .documentation => ({ testCase with documentation := some (.ofCells name values) }, none)
    | .setup => ({ testCase with setup := some (.ofCells name values) }, none)
    | .teardown => ({ testCase with teardown := some (.ofCells name values) }, none)
    | .template => ({ testCase with template := some (.ofCells name values) }, none)
    | .timeout => ({ testCase with timeout := some (.ofCells name values) }, none)
    | .tags => ({ testCase with tags := some (.ofCells name values) }, none)
    | .arguments | .returned =>
      (testCase, some (.unexpectedSetting setting.label "test case".toList name.span.start.line))

/-- What a row of the settings table sets. -/
inductive SuiteSetting where
  | library
  | resource
  | variableFile
  | documentation
  | suiteSetup
  | suiteTeardown
  | testSetup
  | testTeardown
  | testTimeout
  | forceTags
  | defaultTags
deriving DecidableEq

namespace SuiteSetting

def names : List (Text × SuiteSetting) := [
  ("library".toList, library),
  ("resource".toList, resource),
  ("variables".toList, variableFile),
  ("documentation".toList, documentation),
  ("suite setup".toList, suiteSetup),
  ("suite precondition".toList, suiteSetup),
  ("suite teardown".toList, suiteTeardown),
  ("suite postcondition".toList, suiteTeardown),
  ("test setup".toList, testSetup),
  ("test precondition".toList, testSetup),
  ("test teardown".toList, testTeardown),
  ("test postcondition".toList, testTeardown),
  ("test timeout".toList, testTimeout),
  ("force tags".toList, forceTags),
  ("default tags".toList, defaultTags)]

/-- The setting of this name, whatever its case; colons behind it are ignored. -/
def ofName? (name : Text) : Option SuiteSetting :=
  names.lookup (Text.lower (Text.trim (Text.dropEndWhile (· = ':') name)))

end SuiteSetting

/-- Cells that introduce the alias of an imported library. -/
def LibraryImport.marksAlias (cell : Cell) : Bool :=
  cell.content = "WITH NAME".toList || cell.content = "AS".toList

def LibraryImport.ofCells (target : Cell) (rest : List Cell) (location : Location) :
    LibraryImport where
  target := .ofCell target
  args := (rest.takeWhile (!marksAlias ·)).map Expression.ofCell
  alias? := ((rest.dropWhile (!marksAlias ·))[1]?).map Literal.ofCell
  location := location

namespace SettingsTable

/-- Take in one setting, given by its name cell, the cells behind it and the place
of the whole statement. An import without a target is dropped. -/
def set (table : SettingsTable) (name : Cell) (values : List Cell) (location : Location) :
    SuiteSetting → SettingsTable
  | .library => match values with
    | target :: rest =>
      { table with libraryImports := table.libraryImports ++ [.ofCells target rest location] }
    | [] => table
  | .resource => match values with
    | target :: _ =>
      { table with resourceImports := table.resourceImports ++ [⟨.ofCell target, location⟩] }
    | [] => table
  | .variableFile => match values with
    | target :: rest =>
      { table with variableImports :=
          table.variableImports ++ [⟨.ofCell target, rest.map Expression.ofCell, location⟩] }
    | [] => table
  | .documentation => { table with documentation := some (.ofCells name values) }
  | .suiteSetup => { table with suiteSetup := some (.ofCells name values) }
  | .suiteTeardown => { table with suiteTeardown := some (.ofCells name values) }
  | .testSetup => { table with testSetup := some (.ofCells name values) }
  | .testTeardown => { table with testTeardown := some (.ofCells name values) }
  | .testTimeout => { table with testTimeout := some (.ofCells name values) }
  | .forceTags => { table with forceTags := some (.ofCells name values) }
  | .defaultTags => { table with defaultTags := some (.ofCells name values) }

/-- Take in a statement; one that names no setting is dropped. -/
def addStatement (table : SettingsTable) (statement : Statement) : SettingsTable :=
  match statement.filled with
  | name :: values =>
    match SuiteSetting.ofName? name.content with
    | some setting => table.set name values (.parsed statement.span) setting
    | none => table
  | [] => table

def ofTable (table : Table) : SettingsTable :=
  (Statement.ofRows .firstCell table.rows).foldl addStatement (.empty (.parsed table.span))

end SettingsTable

end SuiteIndex
