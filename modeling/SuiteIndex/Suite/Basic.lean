import SuiteIndex.Suite.Function

/-! # Suites

A suite holds at most one table of each kind. Tables of one kind that occur
repeatedly in a text are merged.
-/

namespace SuiteIndex

/-- A setup or teardown of the whole suite, or of all its test cases. -/
structure SuiteHook where
  name : Identifier
  value : Option Call
  location : Location

structure LibraryImport where
  target : Literal
  args : List Expression
  alias? : Option Literal
  location : Location

structure ResourceImport where
  target : Literal
  location : Location

structure VariableImport where
  target : Literal
  args : List Expression
  location : Location

structure SettingsTable where
  documentation : Option Documentation
  suiteSetup : Option SuiteHook
  suiteTeardown : Option SuiteHook
  testSetup : Option SuiteHook
  testTeardown : Option SuiteHook
  testTimeout : Option Timeout
  forceTags : Option Tags
  defaultTags : Option Tags
  libraryImports : List LibraryImport
  resourceImports : List ResourceImport
  variableImports : List VariableImport
  location : Location

namespace SettingsTable

def empty (location : Location) : SettingsTable :=
  ⟨none, none, none, none, none, none, none, none, [], [], [], location⟩

/-- A later table of settings adds its imports, and its other settings replace
those of the earlier one. -/
def merge (a b : SettingsTable) : SettingsTable where
  documentation := b.documentation.or a.documentation
  suiteSetup := b.suiteSetup.or a.suiteSetup
  suiteTeardown := b.suiteTeardown.or a.suiteTeardown
  testSetup := b.testSetup.or a.testSetup
  testTeardown := b.testTeardown.or a.testTeardown
  testTimeout := b.testTimeout.or a.testTimeout
  forceTags := b.forceTags.or a.forceTags
  defaultTags := b.defaultTags.or a.defaultTags
  libraryImports := a.libraryImports ++ b.libraryImports
  resourceImports := a.resourceImports ++ b.resourceImports
  variableImports := a.variableImports ++ b.variableImports
  location := a.location.cover b.location

end SettingsTable

structure VariablesTable where
  declarations : List Declaration
  location : Location

def VariablesTable.merge (a b : VariablesTable) : VariablesTable :=
  ⟨a.declarations ++ b.declarations, a.location.cover b.location⟩

structure KeywordsTable where
  keywords : List UserKeyword
  location : Location

def KeywordsTable.merge (a b : KeywordsTable) : KeywordsTable :=
  ⟨a.keywords ++ b.keywords, a.location.cover b.location⟩

structure TestCasesTable where
  testCases : List TestCase
  location : Location

def TestCasesTable.merge (a b : TestCasesTable) : TestCasesTable :=
  ⟨a.testCases ++ b.testCases, a.location.cover b.location⟩

structure Suite where
  settings? : Option SettingsTable
  variables? : Option VariablesTable
  keywords? : Option KeywordsTable
  testCases? : Option TestCasesTable
  location : Location

namespace Suite

def empty (location : Location) : Suite :=
  ⟨none, none, none, none, location⟩

def keywords (suite : Suite) : List UserKeyword :=
  match suite.keywords? with
  | some table => table.keywords
  | none => []

def testCases (suite : Suite) : List TestCase :=
  match suite.testCases? with
  | some table => table.testCases
  | none => []

/-- The entries of the variables table, in source order. -/
def variableDeclarations (suite : Suite) : List Declaration :=
  match suite.variables? with
  | some table => table.declarations
  | none => []

end Suite

end SuiteIndex
