import SuiteIndex.Suite.Basic

/-! # Nodes

Every part of a suite that has a location is a node. The schema lists, for each
kind of node, the named slots that hold its children; slots are visited in that
order, and the children of a slot in source order.
-/

namespace SuiteIndex

/-- The kinds of nodes. -/
inductive NodeKind where
  | testSuite
  | settingsTable
  | variablesTable
  | keywordsTable
  | testCasesTable
  | suiteSetting
  | libraryImport
  | resourceImport
  | variableImport
  | userKeyword
  | testCase
  | step
  | variableDeclaration
  | documentation
  | arguments
  | returned
  | timeout
  | setup
  | teardown
  | tags
  | template
  | identifier
  | variableExpression
  | literal
  | templateLiteral
  | templateElement
  | callExpression
deriving DecidableEq

namespace NodeKind

def label : NodeKind → Text
  | testSuite => "TestSuite".toList
  | settingsTable => "SettingsTable".toList
  | variablesTable => "VariablesTable".toList
  | keywordsTable => "KeywordsTable".toList
  | testCasesTable => "TestCasesTable".toList
  | suiteSetting => "SuiteSetting".toList
  | libraryImport => "LibraryImport".toList
  | resourceImport => "ResourceImport".toList
  | variableImport => "VariableImport".toList
  | userKeyword => "UserKeyword".toList
  | testCase => "TestCase".toList
  | step => "Step".toList
  | variableDeclaration => "VariableDeclaration".toList
  | documentation => "Documentation".toList
  | arguments => "Arguments".toList
  | returned => "Return".toList
  | timeout => "Timeout".toList
  | setup => "Setup".toList
  | teardown => "Teardown".toList
  | tags => "Tags".toList
  | template => "Template".toList
  | identifier => "Identifier".toList
  | variableExpression => "VariableExpression".toList
  | literal => "Literal".toList
  | templateLiteral => "TemplateLiteral".toList
  | templateElement => "TemplateElement".toList
  | callExpression => "CallExpression".toList

def all : List NodeKind := [
  testSuite, settingsTable, variablesTable, keywordsTable, testCasesTable, suiteSetting,
  libraryImport, resourceImport, variableImport, userKeyword, testCase, step, variableDeclaration,
  documentation, arguments, returned, timeout, setup, teardown, tags, template, identifier,
  variableExpression, literal, templateLiteral, templateElement, callExpression]

def ofLabel? (label : Text) : Option NodeKind :=
  all.find? (·.label = label)

end NodeKind

/-- The names of the places where a node holds its children. -/
inductive SlotName where
  | settingsTable
  | variablesTable
  | keywordsTable
  | testCasesTable
  | documentation
  | suiteSetup
  | suiteTeardown
  | testSetup
  | testTeardown
  | testTimeout
  | forceTags
  | defaultTags
  | libraryImports
  | resourceImports
  | variableImports
  | declarations
  | keywords
  | testCases
  | name
  | value
  | target
  | args
  | aliasName
  | id
  | arguments
  | returns
  | timeout
  | teardown
  | tags
  | steps
  | setup
  | template
  | body
  | values
  | message
  | keyword
  | quasis
  | expressions
  | callee
deriving DecidableEq

namespace SlotName

def label : SlotName → Text
  | settingsTable => "settings_table".toList
  | variablesTable => "variables_table".toList
  | keywordsTable => "keywords_table".toList
  | testCasesTable => "test_cases_table".toList
  | documentation => "documentation".toList
  | suiteSetup => "suite_setup".toList
  | suiteTeardown => "suite_teardown".toList
  | testSetup => "test_setup".toList
  | testTeardown => "test_teardown".toList
  | testTimeout => "test_timeout".toList
  | forceTags => "force_tags".toList
  | defaultTags => "default_tags".toList
  | libraryImports => "library_imports".toList
  | resourceImports => "resource_imports".toList
  | variableImports => "variable_imports".toList
  | declarations => "variables".toList
  | keywords => "keywords".toList
  | testCases => "test_cases".toList
  | name => "name".toList
  | value => "value".toList
  | target => "target".toList
  | args => "args".toList
  | aliasName => "alias".toList
  | id => "id".toList
  | arguments => "arguments".toList
  | returns => "returns".toList
  | timeout => "timeout".toList
  | teardown => "teardown".toList
  | tags => "tags".toList
  | steps => "steps".toList
  | setup => "setup".toList
  | template => "template".toList
  | body => "body".toList
  | values => "values".toList
  | message => "message".toList
  | keyword => "keyword".toList
  | quasis => "quasis".toList
  | expressions => "expressions".toList
  | callee => "callee".toList

def all : List SlotName := [
  settingsTable, variablesTable, keywordsTable, testCasesTable, documentation, suiteSetup,
  suiteTeardown, testSetup, testTeardown, testTimeout, forceTags, defaultTags, libraryImports,
  resourceImports, variableImports, declarations, keywords, testCases, name, value, target, args,
  aliasName, id, arguments, returns, timeout, teardown, tags, steps, setup, template, body, values,
  message, keyword, quasis, expressions, callee]

def ofLabel? (label : Text) : Option SlotName :=
  all.find? (·.label = label)

end SlotName

/-- A slot of the schema. The order of its children may carry meaning or not; they
are visited in source order in either case. -/
structure Slot where
  name : SlotName
  ordered : Bool
deriving DecidableEq

/-- The slots of a kind of node, in visiting order. -/
def NodeKind.slots : NodeKind → List Slot
  | .testSuite => [
    ⟨.settingsTable, false⟩, ⟨.variablesTable, false⟩, ⟨.keywordsTable, false⟩,
    ⟨.testCasesTable, false⟩]
  | .settingsTable => [
    ⟨.documentation, false⟩, ⟨.suiteSetup, false⟩, ⟨.suiteTeardown, false⟩, ⟨.testSetup, false⟩,
    ⟨.testTeardown, false⟩, ⟨.testTimeout, false⟩, ⟨.forceTags, false⟩, ⟨.defaultTags, false⟩,
    ⟨.libraryImports, true⟩, ⟨.resourceImports, true⟩, ⟨.variableImports, true⟩]
  | .variablesTable => [⟨.declarations, true⟩]
  | .keywordsTable => [⟨.keywords, true⟩]
  | .testCasesTable => [⟨.testCases, true⟩]
  | .suiteSetting => [⟨.name, false⟩, ⟨.value, false⟩]
  | .libraryImport => [⟨.target, false⟩, ⟨.args, true⟩, ⟨.aliasName, false⟩]
  | .resourceImport => [⟨.target, false⟩]
  | .variableImport => [⟨.target, false⟩, ⟨.args, true⟩]
  | .userKeyword => [
    ⟨.id, false⟩, ⟨.documentation, false⟩, ⟨.arguments, false⟩, ⟨.returns, false⟩,
    ⟨.timeout, false⟩, ⟨.teardown, false⟩, ⟨.tags, false⟩, ⟨.steps, true⟩]
  | .testCase => [
    ⟨.id, false⟩, ⟨.documentation, false⟩, ⟨.setup, false⟩, ⟨.teardown, false⟩,
    ⟨.template, false⟩, ⟨.timeout, false⟩, ⟨.tags, false⟩, ⟨.steps, true⟩]
  | .step => [⟨.body, false⟩]
  | .variableDeclaration => [⟨.id, false⟩, ⟨.values, true⟩]
  | .documentation => [⟨.id, false⟩, ⟨.value, false⟩]
  | .arguments => [⟨.id, false⟩, ⟨.values, true⟩]
  | .returned => [⟨.id, false⟩, ⟨.values, true⟩]
  | .timeout => [⟨.id, false⟩, ⟨.value, false⟩, ⟨.message, false⟩]
  | .setup => [⟨.id, false⟩, ⟨.keyword, false⟩]
  | .teardown => [⟨.id, false⟩, ⟨.keyword, false⟩]
  | .tags => [⟨.id, false⟩, ⟨.values, true⟩]
  | .template => [⟨.id, false⟩, ⟨.keyword, false⟩]
  | .variableExpression => [⟨.id, false⟩]
  | .templateLiteral => [⟨.quasis, true⟩, ⟨.expressions, true⟩]
  | .callExpression => [⟨.callee, false⟩, ⟨.args, true⟩]
  | .identifier | .literal | .templateElement => []

/-- A part of a suite, tagged with its kind. -/
inductive Node where
  | testSuite (suite : Suite)
  | settingsTable (table : SettingsTable)
  | variablesTable (table : VariablesTable)
  | keywordsTable (table : KeywordsTable)
  | testCasesTable (table : TestCasesTable)
  | suiteSetting (hook : SuiteHook)
  | libraryImport (entry : LibraryImport)
  | resourceImport (entry : ResourceImport)
  | variableImport (entry : VariableImport)
  | userKeyword (keyword : UserKeyword)
  | testCase (test : TestCase)
  | step (action : Step)
  | variableDeclaration (declaration : Declaration)
  | documentation (setting : Documentation)
  | arguments (setting : Arguments)
  | returned (setting : Returned)
  | timeout (setting : Timeout)
  | setup (setting : Hook)
  | teardown (setting : Hook)
  | tags (setting : Tags)
  | template (setting : TemplateSetting)
  | identifier (id : Identifier)
  | variableExpression (use : VariableUse)
  | literal (plain : Literal)
  | templateLiteral (text : TemplateText)
  | templateElement (piece : Literal)
  | callExpression (call : Call)

namespace Node

def kind : Node → NodeKind
  | testSuite _ => .testSuite
  | settingsTable _ => .settingsTable
  | variablesTable _ => .variablesTable
  | keywordsTable _ => .keywordsTable
  | testCasesTable _ => .testCasesTable
  | suiteSetting _ => .suiteSetting
  | libraryImport _ => .libraryImport
  | resourceImport _ => .resourceImport
  | variableImport _ => .variableImport
  | userKeyword _ => .userKeyword
  | testCase _ => .testCase
  | step _ => .step
  | variableDeclaration _ => .variableDeclaration
  | documentation _ => .documentation
  | arguments _ => .arguments
  | returned _ => .returned
  | timeout _ => .timeout
  | setup _ => .setup
  | teardown _ => .teardown
  | tags _ => .tags
  | template _ => .template
  | identifier _ => .identifier
  | variableExpression _ => .variableExpression
  | literal _ => .literal
  | templateLiteral _ => .templateLiteral
  | templateElement _ => .templateElement
  | callExpression _ => .callExpression

def location : Node → Location
  | testSuite node => node.location
  | settingsTable node => node.location
  | variablesTable node => node.location
  | keywordsTable node => node.location
  | testCasesTable node => node.location
  | suiteSetting node => node.location
  | libraryImport node => node.location
  | resourceImport node => node.location
  | variableImport node => node.location
  | userKeyword node => node.location
  | testCase node => node.location
  | step node => node.location
  | variableDeclaration node => node.location
  | documentation node => node.location
  | arguments node => node.location
  | returned node => node.location
  | timeout node => node.location
  | setup node => node.location
  | teardown node => node.location
  | tags node => node.location
  | template node => node.location
  | identifier node => node.location
  | variableExpression node => node.location
  | literal node => node.location
  | templateLiteral node => node.location
  | templateElement node => node.location
  | callExpression node => node.location

def ofExpression : Expression → Node
  | .literal value => literal value
  | .reference use => variableExpression use
  | .template text => templateLiteral text
  | .call callee args location => callExpression ⟨callee, args, location⟩

def ofStepBody : StepBody → Node
  | .declaration declaration => variableDeclaration declaration
  | .call call => callExpression call

def fields : Node → List (SlotName × List Node)
  | testSuite suite => [
    (.settingsTable, suite.settings?.toList.map settingsTable),
    (.variablesTable, suite.variables?.toList.map variablesTable),
    (.keywordsTable, suite.keywords?.toList.map keywordsTable),
    (.testCasesTable, suite.testCases?.toList.map testCasesTable)]
  | settingsTable table => [
    (.documentation, table.documentation.toList.map documentation),
    (.suiteSetup, table.suiteSetup.toList.map suiteSetting),
    (.suiteTeardown, table.suiteTeardown.toList.map suiteSetting),
    (.testSetup, table.testSetup.toList.map suiteSetting),
    (.testTeardown, table.testTeardown.toList.map suiteSetting),
    (.testTimeout, table.testTimeout.toList.map timeout),
    (.forceTags, table.forceTags.toList.map tags),
    (.defaultTags, table.defaultTags.toList.map tags),
    (.libraryImports, table.libraryImports.map libraryImport),
    (.resourceImports, table.resourceImports.map resourceImport),
    (.variableImports, table.variableImports.map variableImport)]
  | variablesTable table => [(.declarations, table.declarations.map variableDeclaration)]
  | keywordsTable table => [(.keywords, table.keywords.map userKeyword)]
  | testCasesTable table => [(.testCases, table.testCases.map testCase)]
  | suiteSetting hook => [
    (.name, [identifier hook.name]),
    (.value, hook.value.toList.map callExpression)]
  | libraryImport entry => [
    (.target, [literal entry.target]),
    (.args, entry.args.map ofExpression),
    (.aliasName, entry.alias?.toList.map literal)]
  | resourceImport entry => [(.target, [literal entry.target])]
  | variableImport entry => [
    (.target, [literal entry.target]),
    (.args, entry.args.map ofExpression)]
  | userKeyword keyword => [
    (.id, [identifier keyword.id]),
    (.documentation, keyword.documentation.toList.map documentation),
    (.arguments, keyword.arguments.toList.map arguments),
    (.returns, keyword.returned.toList.map returned),
    (.timeout, keyword.timeout.toList.map timeout),
    (.teardown, keyword.teardown.toList.map teardown),
    (.tags, keyword.tags.toList.map tags),
    (.steps, keyword.steps.map step)]
  | testCase test => [
    (.id, [identifier test.id]),
    (.documentation, test.documentation.toList.map documentation),
    (.setup, test.setup.toList.map setup),
    (.teardown, test.teardown.toList.map teardown),
    (.template, test.template.toList.map template),
    (.timeout, test.timeout.toList.map timeout),
    (.tags, test.tags.toList.map tags),
    (.steps, test.steps.map step)]
  | step action => [(.body, [ofStepBody action.body])]
  | variableDeclaration declaration => [
    (.id, [identifier declaration.id]),
    (.values, declaration.values.map ofExpression)]
  | documentation setting => [(.id, [identifier setting.id]), (.value, [literal setting.value])]
  | arguments setting => [
    (.id, [identifier setting.id]),
    (.values, setting.values.map variableDeclaration)]
  | returned setting => [
    (.id, [identifier setting.id]),
    (.values, setting.values.map ofExpression)]
  | timeout setting => [
    (.id, [identifier setting.id]),
    (.value, setting.value.toList.map literal),
    (.message, setting.message.toList.map literal)]
  | setup setting => [
    (.id, [identifier setting.id]),
    (.keyword, setting.keyword.toList.map callExpression)]
  | teardown setting => [
    (.id, [identifier setting.id]),
    (.keyword, setting.keyword.toList.map callExpression)]
  | tags setting => [(.id, [identifier setting.id]), (.values, setting.values.map literal)]
  | template setting => [
    (.id, [identifier setting.id]),
    (.keyword, setting.keyword.toList.map identifier)]
  | variableExpression use => [(.id, [identifier use.id])]
  | templateLiteral text => [
    (.quasis, text.pieces.map templateElement),
    (.expressions, text.uses.map variableExpression)]
  | callExpression call => [
    (.callee, [identifier call.callee]),
    (.args, call.args.map ofExpression)]
  | identifier _ | literal _ | templateElement _ => []

/-- The children in one slot; a slot the node does not have holds none. -/
def slot (node : Node) (place : SlotName) : List Node :=
  (node.fields.lookup place).getD []

def children (node : Node) : List Node :=
  node.kind.slots.flatMap fun slot => node.slot slot.name

end Node

end SuiteIndex
