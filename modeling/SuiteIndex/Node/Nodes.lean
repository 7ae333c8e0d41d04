import SuiteIndex.Node.Basic

/-! # The nodes of a suite

All nodes held anywhere in a part of a suite, listed by recursion over its fields:
the part itself, then what its fields hold, field by field. The main statement says
that this is the node followed by the nodes of its children in the schema, so the
schema leaves nothing out, and a walk along it ends.
-/

namespace SuiteIndex
open Node

def VariableUse.nodes (use : VariableUse) : List Node :=
  [variableExpression use, identifier use.id]

def TemplateText.nodes (text : TemplateText) : List Node :=
  templateLiteral text :: text.pieces.map templateElement ++ text.uses.flatMap VariableUse.nodes

mutual

def Expression.nodes : Expression → List Node
  | .literal value => [Node.literal value]
  | .reference use => use.nodes
  | .template text => text.nodes
  | .call callee args location =>
    callExpression ⟨callee, args, location⟩ :: identifier callee :: Expression.nodesOf args

def Expression.nodesOf : List Expression → List Node
  | [] => []
  | e :: es => e.nodes ++ Expression.nodesOf es

end

theorem Expression.nodesOf_eq (es : List Expression) :
    Expression.nodesOf es = es.flatMap Expression.nodes := by
  induction es with
  | nil => simp [Expression.nodesOf]
  | cons e es ih => simp [Expression.nodesOf, ih]

def Call.nodes (call : Call) : List Node :=
  callExpression call :: identifier call.callee :: call.args.flatMap Expression.nodes

def Declaration.nodes (declaration : Declaration) : List Node :=
  variableDeclaration declaration :: identifier declaration.id ::
    declaration.values.flatMap Expression.nodes

def StepBody.nodes : StepBody → List Node
  | .declaration target => target.nodes
  | .call invoked => invoked.nodes

def Step.nodes (action : Step) : List Node :=
  step action :: action.body.nodes

def Documentation.nodes (setting : Documentation) : List Node :=
  documentation setting :: identifier setting.id :: [literal setting.value]

def Arguments.nodes (setting : Arguments) : List Node :=
  arguments setting :: identifier setting.id :: setting.values.flatMap Declaration.nodes

def Returned.nodes (setting : Returned) : List Node :=
  returned setting :: identifier setting.id :: setting.values.flatMap Expression.nodes

def Timeout.nodes (setting : Timeout) : List Node :=
  timeout setting :: identifier setting.id ::
    setting.value.toList.map literal ++ setting.message.toList.map literal

def Hook.setupNodes (setting : Hook) : List Node :=
  setup setting :: identifier setting.id :: setting.keyword.toList.flatMap Call.nodes

def Hook.teardownNodes (setting : Hook) : List Node :=
  teardown setting :: identifier setting.id :: setting.keyword.toList.flatMap Call.nodes

def Tags.nodes (setting : Tags) : List Node :=
  tags setting :: identifier setting.id :: setting.values.map literal

def TemplateSetting.nodes (setting : TemplateSetting) : List Node :=
  template setting :: identifier setting.id :: setting.keyword.toList.map identifier

def UserKeyword.nodes (keyword : UserKeyword) : List Node :=
  userKeyword keyword :: identifier keyword.id ::
    keyword.documentation.toList.flatMap Documentation.nodes ++
    keyword.arguments.toList.flatMap Arguments.nodes ++
    keyword.returned.toList.flatMap Returned.nodes ++
    keyword.timeout.toList.flatMap Timeout.nodes ++
    keyword.teardown.toList.flatMap Hook.teardownNodes ++
    keyword.tags.toList.flatMap Tags.nodes ++ keyword.steps.flatMap Step.nodes

def TestCase.nodes (test : TestCase) : List Node :=
  testCase test :: identifier test.id ::
    test.documentation.toList.flatMap Documentation.nodes ++
    test.setup.toList.flatMap Hook.setupNodes ++
    test.teardown.toList.flatMap Hook.teardownNodes ++
    test.template.toList.flatMap TemplateSetting.nodes ++
    test.timeout.toList.flatMap Timeout.nodes ++ test.tags.toList.flatMap Tags.nodes ++
    test.steps.flatMap Step.nodes

def SuiteHook.nodes (hook : SuiteHook) : List Node :=
  suiteSetting hook :: identifier hook.name :: hook.value.toList.flatMap Call.nodes

def LibraryImport.nodes (entry : LibraryImport) : List Node :=
  libraryImport entry :: literal entry.target ::
    entry.args.flatMap Expression.nodes ++ entry.alias?.toList.map literal

def ResourceImport.nodes (entry : ResourceImport) : List Node :=
  [resourceImport entry, literal entry.target]

def VariableImport.nodes (entry : VariableImport) : List Node :=
  variableImport entry :: literal entry.target :: entry.args.flatMap Expression.nodes

def SettingsTable.nodes (table : SettingsTable) : List Node :=
  settingsTable table ::
    table.documentation.toList.flatMap Documentation.nodes ++
    table.suiteSetup.toList.flatMap SuiteHook.nodes ++
    table.suiteTeardown.toList.flatMap SuiteHook.nodes ++
    table.testSetup.toList.flatMap SuiteHook.nodes ++
    table.testTeardown.toList.flatMap SuiteHook.nodes ++
    table.testTimeout.toList.flatMap Timeout.nodes ++ table.forceTags.toList.flatMap Tags.nodes ++
    table.defaultTags.toList.flatMap Tags.nodes ++
    table.libraryImports.flatMap LibraryImport.nodes ++
    table.resourceImports.flatMap ResourceImport.nodes ++
    table.variableImports.flatMap VariableImport.nodes

def VariablesTable.nodes (table : VariablesTable) : List Node :=
  variablesTable table :: table.declarations.flatMap Declaration.nodes

def KeywordsTable.nodes (table : KeywordsTable) : List Node :=
  keywordsTable table :: table.keywords.flatMap UserKeyword.nodes

def TestCasesTable.nodes (table : TestCasesTable) : List Node :=
  testCasesTable table :: table.testCases.flatMap TestCase.nodes

def Suite.nodes (suite : Suite) : List Node :=
  testSuite suite ::
    suite.settings?.toList.flatMap SettingsTable.nodes ++
    suite.variables?.toList.flatMap VariablesTable.nodes ++
    suite.keywords?.toList.flatMap KeywordsTable.nodes ++
    suite.testCases?.toList.flatMap TestCasesTable.nodes

namespace Node

/-- The nodes of a node's own part of the suite, itself first. -/
def nodes : Node → List Node
  | testSuite part => part.nodes
  | settingsTable part => part.nodes
  | variablesTable part => part.nodes
  | keywordsTable part => part.nodes
  | testCasesTable part => part.nodes
  | suiteSetting part => part.nodes
  | libraryImport part => part.nodes
  | resourceImport part => part.nodes
  | variableImport part => part.nodes
  | userKeyword part => part.nodes
  | testCase part => part.nodes
  | step part => part.nodes
  | variableDeclaration part => part.nodes
  | documentation part => part.nodes
  | arguments part => part.nodes
  | returned part => part.nodes
  | timeout part => part.nodes
  | setup part => part.setupNodes
  | teardown part => part.teardownNodes
  | tags part => part.nodes
  | template part => part.nodes
  | variableExpression part => part.nodes
  | templateLiteral part => part.nodes
  | callExpression part => part.nodes
  | identifier part => [identifier part]
  | literal part => [literal part]
  | templateElement part => [templateElement part]

@[simp] theorem nodes_ofExpression (e : Expression) : (ofExpression e).nodes = e.nodes := by
  cases e <;> simp [ofExpression, nodes, Expression.nodes, Call.nodes, Expression.nodesOf_eq]

@[simp] theorem nodes_ofStepBody (body : StepBody) : (ofStepBody body).nodes = body.nodes := by
  cases body <;> rfl

@[simp] theorem nodes_identifier (id : Identifier) : (identifier id).nodes = [identifier id] := rfl

@[simp] theorem nodes_literal (plain : Literal) : (literal plain).nodes = [literal plain] := rfl

@[simp] theorem nodes_templateElement (piece : Literal) :
    (templateElement piece).nodes = [templateElement piece] := rfl

/-- The nodes of several nodes, one after another. -/
def nodesOf (forest : List Node) : List Node :=
  forest.flatMap nodes

/-- Going through the schema finds every field. -/
theorem children_eq (node : Node) : node.children = node.fields.flatMap Prod.snd := by
  cases node <;> simp [children, kind, NodeKind.slots, slot, fields] <;> rfl

/-- The nodes of a node are itself and the nodes of its children. -/
theorem nodes_eq (node : Node) : node.nodes = node :: nodesOf node.children := by
  rw [children_eq, nodesOf]
  cases node with
  | testSuite part => rw [nodes, Suite.nodes]; simp [fields, List.flatMap_map]; rfl
  | settingsTable part => rw [nodes, SettingsTable.nodes]; simp [fields, List.flatMap_map]; rfl
  | variablesTable part => rw [nodes, VariablesTable.nodes]; simp [fields, List.flatMap_map]; rfl
  | keywordsTable part => rw [nodes, KeywordsTable.nodes]; simp [fields, List.flatMap_map]; rfl
  | testCasesTable part => rw [nodes, TestCasesTable.nodes]; simp [fields, List.flatMap_map]; rfl
  | suiteSetting part => rw [nodes, SuiteHook.nodes]; simp [fields, List.flatMap_map]; rfl
  | libraryImport part =>
    rw [nodes, LibraryImport.nodes]; simp [fields, List.flatMap_map, ← List.map_eq_flatMap]
  | resourceImport part => rw [nodes, ResourceImport.nodes]; simp [fields]
  | variableImport part => rw [nodes, VariableImport.nodes]; simp [fields, List.flatMap_map]
  | userKeyword part => rw [nodes, UserKeyword.nodes]; simp [fields, List.flatMap_map]; rfl
  | testCase part => rw [nodes, TestCase.nodes]; simp [fields, List.flatMap_map]; rfl
  | step part => rw [nodes, Step.nodes]; simp [fields]
  | variableDeclaration part => rw [nodes, Declaration.nodes]; simp [fields, List.flatMap_map]
  | documentation part => rw [nodes, Documentation.nodes]; simp [fields]
  | arguments part => rw [nodes, Arguments.nodes]; simp [fields, List.flatMap_map]; rfl
  | returned part => rw [nodes, Returned.nodes]; simp [fields, List.flatMap_map]
  | timeout part =>
    rw [nodes, Timeout.nodes]; simp [fields, List.flatMap_map, ← List.map_eq_flatMap]
  | setup part => rw [nodes, Hook.setupNodes]; simp [fields, List.flatMap_map]; rfl
  | teardown part => rw [nodes, Hook.teardownNodes]; simp [fields, List.flatMap_map]; rfl
  | tags part => rw [nodes, Tags.nodes]; simp [fields, List.flatMap_map, ← List.map_eq_flatMap]
  | template part =>
    rw [nodes, TemplateSetting.nodes]; simp [fields, List.flatMap_map, ← List.map_eq_flatMap]
  | variableExpression part => rw [nodes, VariableUse.nodes]; simp [fields]
  | templateLiteral part =>
    rw [nodes, TemplateText.nodes]; simp [fields, List.flatMap_map, ← List.map_eq_flatMap]; rfl
  | callExpression part => rw [nodes, Call.nodes]; simp [fields, List.flatMap_map]
  | identifier | literal | templateElement => rfl

theorem length_nodesOf_children (node : Node) :
    (nodesOf node.children).length < node.nodes.length := by
  rw [nodes_eq node, List.length_cons]
  exact Nat.lt_succ_self _

end Node

end SuiteIndex
