import SuiteIndex.Proofs.Suite.Call
import SuiteIndex.Proofs.Table.Renumbering
import SuiteIndex.Suite.Reading

/-! # Suites on renumbered lines

A suite can be moved to renumbered lines, part by part. Every reader gives, for cells on
renumbered lines, what it gives for the old cells, moved there. The order of the lines
matters only where spans are covered: in continued statements, in functions that take in
statements, in tables and in the whole suite.
-/

namespace SuiteIndex

section Parts

variable (g : Nat → Nat)

def Identifier.renumber (id : Identifier) : Identifier :=
  { id with location := id.location.renumber g }

def VariableUse.renumber (use : VariableUse) : VariableUse :=
  { use with id := use.id.renumber g, location := use.location.renumber g }

def Literal.renumber (literal : Literal) : Literal :=
  { literal with location := literal.location.renumber g }

def TemplateText.renumber (template : TemplateText) : TemplateText where
  pieces := template.pieces.map (Literal.renumber g)
  uses := template.uses.map (VariableUse.renumber g)
  location := template.location.renumber g

mutual

def Expression.renumber : Expression → Expression
  | .literal plain => .literal (plain.renumber g)
  | .reference use => .reference (use.renumber g)
  | .template mixed => .template (mixed.renumber g)
  | .call callee args location =>
    .call (callee.renumber g) (renumberAll args) (location.renumber g)

def Expression.renumberAll : List Expression → List Expression
  | [] => []
  | first :: rest => first.renumber :: renumberAll rest

end

theorem Expression.renumberAll_eq_map (expressions : List Expression) :
    renumberAll g expressions = expressions.map (renumber g) := by
  induction expressions with
  | nil => rfl
  | cons first rest ih => rw [renumberAll, ih, List.map_cons]

def Call.renumber (call : Call) : Call where
  callee := call.callee.renumber g
  args := call.args.map (Expression.renumber g)
  location := call.location.renumber g

def Declaration.renumber (declaration : Declaration) : Declaration where
  id := declaration.id.renumber g
  kind := declaration.kind
  values := declaration.values.map (Expression.renumber g)
  location := declaration.location.renumber g

def StepBody.renumber : StepBody → StepBody
  | .declaration assigned => .declaration (assigned.renumber g)
  | .call made => .call (made.renumber g)

def Step.renumber (step : Step) : Step where
  body := step.body.renumber g
  location := step.location.renumber g

def Documentation.renumber (documentation : Documentation) : Documentation where
  id := documentation.id.renumber g
  value := documentation.value.renumber g
  location := documentation.location.renumber g

def Arguments.renumber (arguments : Arguments) : Arguments where
  id := arguments.id.renumber g
  values := arguments.values.map (Declaration.renumber g)
  location := arguments.location.renumber g

def Returned.renumber (returned : Returned) : Returned where
  id := returned.id.renumber g
  values := returned.values.map (Expression.renumber g)
  location := returned.location.renumber g

def Timeout.renumber (timeout : Timeout) : Timeout where
  id := timeout.id.renumber g
  value := timeout.value.map (Literal.renumber g)
  message := timeout.message.map (Literal.renumber g)
  location := timeout.location.renumber g

def Hook.renumber (hook : Hook) : Hook where
  id := hook.id.renumber g
  keyword := hook.keyword.map (Call.renumber g)
  location := hook.location.renumber g

def Tags.renumber (tags : Tags) : Tags where
  id := tags.id.renumber g
  values := tags.values.map (Literal.renumber g)
  location := tags.location.renumber g

def TemplateSetting.renumber (template : TemplateSetting) : TemplateSetting where
  id := template.id.renumber g
  keyword := template.keyword.map (Identifier.renumber g)
  location := template.location.renumber g

def UserKeyword.renumber (keyword : UserKeyword) : UserKeyword where
  id := keyword.id.renumber g
  steps := keyword.steps.map (Step.renumber g)
  documentation := keyword.documentation.map (Documentation.renumber g)
  arguments := keyword.arguments.map (Arguments.renumber g)
  returned := keyword.returned.map (Returned.renumber g)
  timeout := keyword.timeout.map (Timeout.renumber g)
  teardown := keyword.teardown.map (Hook.renumber g)
  tags := keyword.tags.map (Tags.renumber g)
  location := keyword.location.renumber g

def TestCase.renumber (testCase : TestCase) : TestCase where
  id := testCase.id.renumber g
  steps := testCase.steps.map (Step.renumber g)
  documentation := testCase.documentation.map (Documentation.renumber g)
  setup := testCase.setup.map (Hook.renumber g)
  teardown := testCase.teardown.map (Hook.renumber g)
  template := testCase.template.map (TemplateSetting.renumber g)
  timeout := testCase.timeout.map (Timeout.renumber g)
  tags := testCase.tags.map (Tags.renumber g)
  location := testCase.location.renumber g

def SuiteHook.renumber (hook : SuiteHook) : SuiteHook where
  name := hook.name.renumber g
  value := hook.value.map (Call.renumber g)
  location := hook.location.renumber g

def LibraryImport.renumber (library : LibraryImport) : LibraryImport where
  target := library.target.renumber g
  args := library.args.map (Expression.renumber g)
  alias? := library.alias?.map (Literal.renumber g)
  location := library.location.renumber g

def ResourceImport.renumber (resource : ResourceImport) : ResourceImport where
  target := resource.target.renumber g
  location := resource.location.renumber g

def VariableImport.renumber (file : VariableImport) : VariableImport where
  target := file.target.renumber g
  args := file.args.map (Expression.renumber g)
  location := file.location.renumber g

def SettingsTable.renumber (table : SettingsTable) : SettingsTable where
  documentation := table.documentation.map (Documentation.renumber g)
  suiteSetup := table.suiteSetup.map (SuiteHook.renumber g)
  suiteTeardown := table.suiteTeardown.map (SuiteHook.renumber g)
  testSetup := table.testSetup.map (SuiteHook.renumber g)
  testTeardown := table.testTeardown.map (SuiteHook.renumber g)
  testTimeout := table.testTimeout.map (Timeout.renumber g)
  forceTags := table.forceTags.map (Tags.renumber g)
  defaultTags := table.defaultTags.map (Tags.renumber g)
  libraryImports := table.libraryImports.map (LibraryImport.renumber g)
  resourceImports := table.resourceImports.map (ResourceImport.renumber g)
  variableImports := table.variableImports.map (VariableImport.renumber g)
  location := table.location.renumber g

def VariablesTable.renumber (table : VariablesTable) : VariablesTable where
  declarations := table.declarations.map (Declaration.renumber g)
  location := table.location.renumber g

def KeywordsTable.renumber (table : KeywordsTable) : KeywordsTable where
  keywords := table.keywords.map (UserKeyword.renumber g)
  location := table.location.renumber g

def TestCasesTable.renumber (table : TestCasesTable) : TestCasesTable where
  testCases := table.testCases.map (TestCase.renumber g)
  location := table.location.renumber g

/-- The suite on renumbered lines: every location is moved, and nothing else changes. -/
def Suite.renumber (suite : Suite) : Suite where
  settings? := suite.settings?.map (SettingsTable.renumber g)
  variables? := suite.variables?.map (VariablesTable.renumber g)
  keywords? := suite.keywords?.map (KeywordsTable.renumber g)
  testCases? := suite.testCases?.map (TestCasesTable.renumber g)
  location := suite.location.renumber g

end Parts

section Cells

variable (g : Nat → Nat)

@[simp] theorem Identifier.plain_renumber (cell : Cell) :
    plain (cell.renumber g) = (plain cell).renumber g := rfl

theorem Identifier.ofCell_renumber (cell : Cell) :
    ofCell (cell.renumber g) = (ofCell cell).renumber g := by
  simp only [ofCell, Cell.content_renumber]
  split
  · split <;> rfl
  · rfl

@[simp] theorem Identifier.name_renumber (id : Identifier) : (id.renumber g).name = id.name := rfl

@[simp] theorem Literal.ofCell_renumber (cell : Cell) :
    ofCell (cell.renumber g) = (ofCell cell).renumber g := rfl

theorem VariableUse.ofToken?_renumber (cell : Cell) (token : Token) :
    ofToken? (cell.renumber g) token = (ofToken? cell token).map (renumber g) := by
  unfold ofToken?
  cases token.parts? with
  | none => rfl
  | some parts =>
    obtain ⟨sigil, name⟩ := parts
    cases hkind : VariableKind.ofSigil? sigil with
    | none => simp [hkind]
    | some kind =>
      simp [hkind]
      rfl

theorem TemplateText.assemble_renumber (cell : Cell) (start : Nat) (text : Text)
    (tokens : List Token) :
    assemble (cell.renumber g) start text tokens =
      ((assemble cell start text tokens).1.map (Literal.renumber g),
        (assemble cell start text tokens).2.map (VariableUse.renumber g)) := by
  induction tokens generalizing start text with
  | nil => rfl
  | cons token rest ih =>
    simp only [assemble, VariableUse.ofToken?_renumber]
    cases VariableUse.ofToken? cell token with
    | none => exact ih start (text ++ token.text)
    | some use =>
      simp only [Option.map_some, ih, List.map_cons]
      rfl

theorem TemplateText.ofTokens_renumber (cell : Cell) (tokens : List Token) :
    ofTokens (cell.renumber g) tokens = (ofTokens cell tokens).renumber g := by
  simp only [ofTokens, assemble_renumber]
  rfl

theorem Expression.ofCell_renumber (cell : Cell) :
    ofCell (cell.renumber g) = (ofCell cell).renumber g := by
  simp only [ofCell, Cell.content_renumber, VariableUse.ofToken?_renumber,
    TemplateText.ofTokens_renumber]
  split
  · split
    · cases VariableUse.ofToken? cell _ <;> simp [renumber]
    · simp [renumber]
  · simp [renumber]

@[simp] theorem Expression.map_ofCell_renumber (cells : List Cell) :
    (cells.map (Cell.renumber g)).map ofCell = (cells.map ofCell).map (renumber g) := by
  simp [ofCell_renumber]

def Target.renumber (target : Target) : Target where
  id := target.id.renumber g
  kind := target.kind
  default? := target.default?.map (Expression.renumber g)
  location := target.location.renumber g

theorem Target.ofCell?_renumber (allowDefault : Bool) (cell : Cell) :
    ofCell? allowDefault (cell.renumber g) = (ofCell? allowDefault cell).map (renumber g) := by
  unfold ofCell?
  rw [Cell.content_renumber]
  cases (Token.scan cell.content).head? with
  | none => rfl
  | some head =>
    simp only [Option.bind_eq_bind, Option.bind_some]
    cases head.parts? with
    | none => rfl
    | some parts =>
      simp only [Option.bind_some]
      cases VariableKind.ofSigil? parts.1 with
      | none => rfl
      | some kind =>
        simp only [Option.bind_some]
        split_ifs
        · rfl
        · cases Text.after? ['='] (cell.content.drop head.text.length) with
          | none => rfl
          | some text =>
            have hvalue := Expression.ofCell_renumber g
              ⟨text, cell.part (head.stop + 1) (head.stop + 1 + text.length)⟩
            simp only [Option.bind_some, Option.map_some, Option.pure_def, renumber, ← hvalue]
            rfl
        · rfl

theorem Target.toDeclaration_renumber (target : Target) :
    (target.renumber g).toDeclaration = target.toDeclaration.renumber g := by
  simp only [toDeclaration, renumber, Declaration.renumber]
  cases target.default? <;> rfl

end Cells

namespace Call

variable (g : Nat → Nat)

@[simp] theorem isSeparator_renumber (cell : Cell) :
    isSeparator (cell.renumber g) = isSeparator cell := rfl

theorem runs_renumber (cells : List Cell) : runs (cells.map (Cell.renumber g)) =
    ((runs cells).1.map (Cell.renumber g), (runs cells).2.map fun run =>
      (run.1.renumber g, run.2.map (Cell.renumber g))) := by
  induction cells with
  | nil => rfl
  | cons cell rest ih =>
    simp only [List.map_cons, runs, ih, isSeparator_renumber]
    split <;> rfl

theorem embed_renumber (call? : Option Call) :
    embed (call?.map (renumber g)) = (embed call?).map (Expression.renumber g) := by
  cases call? with
  | none => rfl
  | some call =>
    simp [embed, toExpression, renumber, Expression.renumber, Expression.renumberAll_eq_map]

/-- The arguments are moved if the calls among them are, which have no more cells. -/
theorem argsOf_renumber {rest : List Cell}
    (hcalls : ∀ cells : List Cell, cells.length ≤ rest.length →
      ofCells? (cells.map (Cell.renumber g)) = (ofCells? cells).map (renumber g))
    (shape : Shape) :
    argsOf (rest.map (Cell.renumber g)) shape =
      (argsOf rest shape).map (Expression.renumber g) := by
  have hembed {cells : List Cell} (hlength : cells.length ≤ rest.length) :
      embed (ofCells? (cells.map (Cell.renumber g))) =
        (embed (ofCells? cells)).map (Expression.renumber g) := by
    rw [hcalls cells hlength, embed_renumber]
  cases shape with
  | values => exact Expression.map_ofCell_renumber g rest
  | callAfter count =>
    simp only [argsOf]
    rw [← List.map_take, ← List.map_drop, Expression.map_ofCell_renumber,
      hembed (by simp), List.map_append]
  | sequence =>
    have hany : (rest.map (Cell.renumber g)).any isSeparator = rest.any isSeparator := by
      rw [List.any_map]
      rfl
    simp only [argsOf, hany]
    split
    · rw [runs_renumber, List.map_append, hembed (length_runs_fst rest), List.flatMap_map,
        List.map_flatMap]
      congr 1
      refine List.flatMap_congr fun run hrun => ?_
      rw [List.map_cons, ← hembed (length_of_mem_runs rest run hrun).le]
      rfl
    · rw [List.flatMap_map, List.map_flatMap]
      refine List.flatMap_congr fun cell hcell => ?_
      have hlength : [cell].length ≤ rest.length := List.length_pos_of_mem hcell
      exact hembed hlength

theorem ofCells?_renumber (cells : List Cell) :
    ofCells? (cells.map (Cell.renumber g)) = (ofCells? cells).map (renumber g) := by
  induction hlength : cells.length using Nat.strong_induction_on generalizing cells with
  | _ n ih =>
    subst hlength
    cases cells with
    | nil => simp [ofCells?]
    | cons first rest =>
      have hargs := argsOf_renumber g fun cells hcells =>
        ih cells.length (Nat.lt_succ_of_le hcells) cells rfl
      rw [List.map_cons, ofCells?_cons, ofCells?_cons, Identifier.ofCell_renumber,
        Identifier.name_renumber, hargs, Cell.reach_renumber]
      rfl

end Call

theorem Step.ofCells?_renumber (g : Nat → Nat) (cells : List Cell) :
    Step.ofCells? (cells.map (Cell.renumber g)) = (Step.ofCells? cells).map (Step.renumber g) := by
  cases cells with
  | nil => rfl
  | cons first rest =>
    have htargets : (rest.map (Cell.renumber g)).dropWhile isTarget =
        (rest.dropWhile isTarget).map (Cell.renumber g) := by
      rw [List.dropWhile_map]
      congr 2
      funext cell
      simp [isTarget, Target.ofCell?_renumber]
    simp only [List.map_cons, ofCells?, Target.ofCell?_renumber, htargets, Call.ofCells?_renumber,
      Call.embed_renumber, Cell.reach_renumber]
    cases Target.ofCell? false first with
    | some target => rfl
    | none =>
      rw [← List.map_cons, Call.ofCells?_renumber]
      cases Call.ofCells? (first :: rest) <;> rfl

section Settings

variable (g : Nat → Nat) (name : Cell) (values : List Cell)

theorem Documentation.ofCells_renumber :
    ofCells (name.renumber g) (values.map (Cell.renumber g)) = (ofCells name values).renumber g := by
  have hcontents : (values.map (Cell.renumber g)).map Cell.content = values.map Cell.content := by
    simp
  simp only [ofCells, hcontents, Cell.range?_renumber, Cell.reach_renumber]
  cases Cell.range? values <;> rfl

theorem Arguments.ofCells_renumber :
    ofCells (name.renumber g) (values.map (Cell.renumber g)) = (ofCells name values).renumber g := by
  have hvalues : (values.map (Cell.renumber g)).filterMap
      (fun cell => (Target.ofCell? true cell).map Target.toDeclaration) =
      (values.filterMap fun cell => (Target.ofCell? true cell).map Target.toDeclaration).map
        (Declaration.renumber g) := by
    simp [List.filterMap_map, List.map_filterMap, Function.comp_def, Target.ofCell?_renumber,
      Target.toDeclaration_renumber]
  simp only [ofCells, hvalues, Cell.reach_renumber]
  rfl

theorem Returned.ofCells_renumber :
    ofCells (name.renumber g) (values.map (Cell.renumber g)) = (ofCells name values).renumber g := by
  simp only [ofCells, Expression.map_ofCell_renumber, Cell.reach_renumber]
  rfl

theorem Timeout.ofCells_renumber :
    ofCells (name.renumber g) (values.map (Cell.renumber g)) = (ofCells name values).renumber g := by
  simp [ofCells, renumber, Cell.reach_renumber, Function.comp_def]

theorem Hook.ofCells_renumber :
    ofCells (name.renumber g) (values.map (Cell.renumber g)) = (ofCells name values).renumber g := by
  simp only [ofCells, Call.ofCells?_renumber, Cell.reach_renumber]
  rfl

theorem Tags.ofCells_renumber :
    ofCells (name.renumber g) (values.map (Cell.renumber g)) = (ofCells name values).renumber g := by
  simp [ofCells, renumber, Cell.reach_renumber]

theorem TemplateSetting.ofCells_renumber :
    ofCells (name.renumber g) (values.map (Cell.renumber g)) = (ofCells name values).renumber g := by
  simp [ofCells, renumber, Cell.reach_renumber, Function.comp_def, Identifier.ofCell_renumber]

theorem SuiteHook.ofCells_renumber :
    ofCells (name.renumber g) (values.map (Cell.renumber g)) = (ofCells name values).renumber g := by
  simp only [ofCells, Call.ofCells?_renumber, Cell.reach_renumber]
  rfl

theorem LibraryImport.ofCells_renumber (location : Location) :
    ofCells (name.renumber g) (values.map (Cell.renumber g)) (location.renumber g) =
      (ofCells name values location).renumber g := by
  have hmarks : (fun cell => !marksAlias cell) ∘ Cell.renumber g = fun cell => !marksAlias cell :=
    rfl
  simp only [ofCells, List.takeWhile_map, List.dropWhile_map, hmarks,
    Expression.map_ofCell_renumber, List.getElem?_map]
  cases (values.dropWhile fun cell => !marksAlias cell)[1]? <;> rfl

theorem UserKeyword.apply_renumber (keyword : UserKeyword) {setting : Setting}
    (h : setting ∈ Setting.ofKeyword) :
    (keyword.renumber g).apply setting (name.renumber g :: values.map (Cell.renumber g)) =
      (keyword.apply setting (name :: values)).map (renumber g) fun cause? => cause? := by
  cases setting with
  | documentation | arguments | returned | timeout | teardown | tags =>
    simp [apply, renumber, Documentation.ofCells_renumber,
      Arguments.ofCells_renumber, Returned.ofCells_renumber, Timeout.ofCells_renumber,
      Hook.ofCells_renumber, Tags.ofCells_renumber]
  | setup | template => simp [Setting.ofKeyword] at h

theorem TestCase.apply_renumber (testCase : TestCase) {setting : Setting}
    (h : setting ∈ Setting.ofTestCase) :
    (testCase.renumber g).apply setting (name.renumber g :: values.map (Cell.renumber g)) =
      (testCase.apply setting (name :: values)).map (renumber g) fun cause? => cause? := by
  cases setting with
  | documentation | setup | teardown | template | timeout | tags =>
    simp [apply, renumber, Documentation.ofCells_renumber,
      TemplateSetting.ofCells_renumber, Timeout.ofCells_renumber, Hook.ofCells_renumber,
      Tags.ofCells_renumber]
  | arguments | returned => simp [Setting.ofTestCase] at h

theorem SettingsTable.set_renumber (table : SettingsTable) (location : Location)
    (setting : SuiteSetting) :
    (table.renumber g).set (name.renumber g) (values.map (Cell.renumber g)) (location.renumber g)
      setting = (table.set name values location setting).renumber g := by
  cases setting with
  | library =>
    cases values with
    | nil => rfl
    | cons target rest => simp [set, renumber, LibraryImport.ofCells_renumber]
  | resource =>
    cases values with
    | nil => rfl
    | cons target rest => simp [set, renumber, ResourceImport.renumber]
  | variableFile =>
    cases values with
    | nil => rfl
    | cons target rest =>
      simp [set, renumber, VariableImport.renumber, Expression.ofCell_renumber]
  | documentation | suiteSetup | suiteTeardown | testSetup | testTeardown | testTimeout
  | forceTags | defaultTags =>
    simp [set, renumber, Documentation.ofCells_renumber, SuiteHook.ofCells_renumber,
      Timeout.ofCells_renumber, Tags.ofCells_renumber]

theorem SettingsTable.addStatement_renumber (table : SettingsTable) (statement : Statement) :
    (table.renumber g).addStatement (statement.renumber g) =
      (table.addStatement statement).renumber g := by
  simp only [addStatement, Statement.filled_renumber]
  cases statement.filled with
  | nil => rfl
  | cons name values =>
    simp only [List.map_cons, Cell.content_renumber]
    cases SuiteSetting.ofName? name.content with
    | none => rfl
    | some setting => exact set_renumber g name values table (.parsed statement.span) setting

end Settings

/-- How a function is moved to renumbered lines. -/
class Function.Renumbers (F : Type) [Function F] where
  renumber : (Nat → Nat) → F → F
  named_renumber (g : Nat → Nat) (id : Identifier) :
    (named (id.renumber g) : F) = renumber g (named id)
  widen_renumber {g : Nat → Nat} (hg : StrictMono g) (function : F) (span : Span) :
    widen (renumber g function) (span.renumber g) = renumber g (widen function span)
  addStep_renumber (g : Nat → Nat) (function : F) (step : Step) :
    addStep (renumber g function) (step.renumber g) = renumber g (addStep function step)
  apply_renumber (g : Nat → Nat) (function : F) {setting : Setting} (h : setting ∈ accepted F)
    (name : Cell) (values : List Cell) :
    apply (renumber g function) setting (name.renumber g :: values.map (Cell.renumber g)) =
      (apply function setting (name :: values)).map (renumber g) fun cause? => cause?

instance : Function.Renumbers UserKeyword where
  renumber := UserKeyword.renumber
  named_renumber _ _ := rfl
  widen_renumber hg keyword span := by
    simp only [Function.widen, UserKeyword.renumber, ← Location.cover_renumber hg]
    rfl
  addStep_renumber _ _ _ := by simp [Function.addStep, UserKeyword.renumber]
  apply_renumber g keyword _ h name values := keyword.apply_renumber g name values h

instance : Function.Renumbers TestCase where
  renumber := TestCase.renumber
  named_renumber _ _ := rfl
  widen_renumber hg testCase span := by
    simp only [Function.widen, TestCase.renumber, ← Location.cover_renumber hg]
    rfl
  addStep_renumber _ _ _ := by simp [Function.addStep, TestCase.renumber]
  apply_renumber g testCase _ h name values := testCase.apply_renumber g name values h

namespace Function

variable {F : Type} [Function F] [Renumbers F] {g : Nat → Nat}

open Renumbers

/-- Only a setting that the function accepts is applied, so no error tells a line. -/
theorem addStatement_renumber (hg : StrictMono g) (function : F) (span : Span) (first : Cell)
    (rest : List Cell) :
    addStatement (renumber g function) (span.renumber g) (first.renumber g)
        (rest.map (Cell.renumber g)) =
      (addStatement function span first rest).map (renumber g) := by
  simp only [addStatement, Cell.content_renumber, widen_renumber hg]
  cases hsetting : (Setting.ofContent? first.content).filter (accepted F).contains with
  | some setting =>
    have haccepted : setting ∈ accepted F := by
      simpa using (Option.filter_eq_some_iff.1 hsetting).2
    dsimp only
    rw [← List.map_cons, List.map_cons, apply_renumber g _ haccepted first rest]
    obtain ⟨changed, error?⟩ := apply (widen function span) setting (first :: rest)
    cases error? <;> rfl
  | none =>
    simp only [← List.map_cons, Step.ofCells?_renumber]
    cases Step.ofCells? (first :: rest) with
    | none => rfl
    | some step => exact congrArg Except.ok (addStep_renumber g _ step)

theorem addBody_renumber (hg : StrictMono g) (function? : Option F) (span : Span)
    (cells : List Cell) :
    addBody (function?.map (renumber g)) (span.renumber g) (cells.map (Cell.renumber g)) =
      (addBody function? span cells).map (Option.map (renumber g)) := by
  simp only [addBody, Cell.trimEmpty_renumber]
  cases function? with
  | none => rfl
  | some function =>
    cases Cell.trimEmpty cells with
    | nil => rfl
    | cons first rest =>
      simp only [Option.map_some, List.map_cons, addStatement_renumber hg]
      cases addStatement function span first rest <;> rfl

theorem fold_renumber (hg : StrictMono g) {name : Cell → Identifier}
    (hname : ∀ cell : Cell, name (cell.renumber g) = (name cell).renumber g) (current : Option F)
    (statements : List Statement) :
    fold name (current.map (renumber g)) (statements.map (Statement.renumber g)) =
      (fold name current statements).map (List.map (renumber g)) := by
  induction statements generalizing current with
  | nil => cases current <;> rfl
  | cons statement rest ih =>
    have hopened : ((statement.renumber g).cells.head?.map fun cell => (named (name cell) : F)) =
        (statement.cells.head?.map fun cell => named (name cell)).map (renumber g) := by
      simp [Statement.renumber, hname, named_renumber, Function.comp_def]
    have hdrop : (statement.renumber g).cells.drop 1 =
        (statement.cells.drop 1).map (Cell.renumber g) := by
      simp [Statement.renumber]
    simp only [List.map_cons, fold, Statement.startsFilled_renumber]
    split
    · rw [hopened, hdrop]
      change (addBody _ (statement.span.renumber g) _ >>= _) = _
      rw [addBody_renumber hg]
      cases addBody (statement.cells.head?.map fun cell => (named (name cell) : F)) statement.span
        (statement.cells.drop 1) with
      | error cause => rfl
      | ok next =>
        change (fold name (next.map (renumber g)) _ >>= _) = Except.map _ (fold name next rest >>= _)
        rw [ih]
        cases fold name next rest with
        | error cause => rfl
        | ok functions => cases current <;> rfl
    · change (addBody _ (statement.span.renumber g) (statement.cells.map (Cell.renumber g)) >>= _) = _
      rw [addBody_renumber hg]
      cases addBody current statement.span statement.cells with
      | error cause => rfl
      | ok next => exact ih next

theorem ofTable_renumber (hg : StrictMono g) (name : Cell → Identifier)
    (hname : ∀ cell : Cell, name (cell.renumber g) = (name cell).renumber g) (table : Table) :
    (ofTable name (table.renumber g) : Except SourceError (List F)) =
      (ofTable name table).map (List.map (renumber g)) := by
  rw [ofTable, Table.renumber, Statement.ofRows_renumber hg]
  exact fold_renumber hg hname none _

end Function

section Tables

theorem VariablesTable.values?_renumber (g : Nat → Nat) (cells : List Cell) (kind : VariableKind) :
    values? (cells.map (Cell.renumber g)) kind =
      (values? cells kind).map (List.map (Expression.renumber g)) := by
  cases kind with
  | scalar => cases cells <;> simp [values?, Expression.ofCell_renumber]
  | list => exact congrArg some (Expression.map_ofCell_renumber g cells)
  | dictionary => simp [values?, Expression.renumber]
  | environment => rfl

theorem VariablesTable.declaration?_renumber (g : Nat → Nat) (statement : Statement) :
    declaration? (statement.renumber g) =
      (declaration? statement).map (Declaration.renumber g) := by
  simp only [declaration?, Statement.startsFilled_renumber, Statement.filled_renumber]
  split
  · rfl
  · cases statement.filled with
    | nil => rfl
    | cons name rest =>
      simp only [List.map_cons, List.head?_cons, Option.bind_eq_bind, Option.bind_some,
        Target.ofCell?_renumber]
      cases Target.ofCell? false name with
      | none => rfl
      | some target =>
        change (values? (rest.map (Cell.renumber g)) target.kind).bind _ =
          ((values? rest target.kind).bind _).map _
        rw [values?_renumber]
        cases values? rest target.kind <;> rfl

variable {g : Nat → Nat} (hg : StrictMono g)

include hg

theorem SettingsTable.ofTable_renumber (table : Table) :
    ofTable (table.renumber g) = (ofTable table).renumber g := by
  have hfold (statements : List Statement) (start : SettingsTable) :
      (statements.map (Statement.renumber g)).foldl addStatement (start.renumber g) =
        (statements.foldl addStatement start).renumber g := by
    induction statements generalizing start with
    | nil => rfl
    | cons statement rest ih =>
      rw [List.map_cons, List.foldl_cons, addStatement_renumber, ih, List.foldl_cons]
  simp only [ofTable, Table.span_renumber hg]
  rw [Table.renumber, Statement.ofRows_renumber hg]
  exact hfold _ (.empty (.parsed table.span))

theorem VariablesTable.ofTable_renumber (table : Table) :
    ofTable (table.renumber g) = (ofTable table).renumber g := by
  simp only [ofTable, Table.span_renumber hg]
  rw [Table.renumber, Statement.ofRows_renumber hg]
  simp [renumber, List.filterMap_map, List.map_filterMap, declaration?_renumber,
    Location.renumber]

theorem KeywordsTable.ofTable_renumber (moduleName : Text) (table : Table) :
    ofTable moduleName (table.renumber g) = (ofTable moduleName table).map (renumber g) := by
  have hname (cell : Cell) : Identifier.declared moduleName (.plain (cell.renumber g)) =
      (Identifier.declared moduleName (.plain cell)).renumber g := by
    simp only [Identifier.declared]
    split <;> rfl
  simp only [ofTable, Table.span_renumber hg,
    Function.ofTable_renumber hg (fun cell => .declared moduleName (.plain cell)) hname]
  cases (Function.ofTable (fun cell => Identifier.declared moduleName (.plain cell)) table :
    Except SourceError (List UserKeyword)) <;> rfl

theorem TestCasesTable.ofTable_renumber (table : Table) :
    ofTable (table.renumber g) = (ofTable table).map (renumber g) := by
  simp only [ofTable, Table.span_renumber hg, Function.ofTable_renumber hg .plain fun _ => rfl]
  cases (Function.ofTable Identifier.plain table : Except SourceError (List TestCase)) <;> rfl

theorem SettingsTable.merge_renumber (a b : SettingsTable) :
    (a.renumber g).merge (b.renumber g) = (a.merge b).renumber g := by
  simp [merge, renumber, Location.cover_renumber hg, Option.map_or]

theorem VariablesTable.merge_renumber (a b : VariablesTable) :
    (a.renumber g).merge (b.renumber g) = (a.merge b).renumber g := by
  simp [merge, renumber, Location.cover_renumber hg]

theorem KeywordsTable.merge_renumber (a b : KeywordsTable) :
    (a.renumber g).merge (b.renumber g) = (a.merge b).renumber g := by
  simp [merge, renumber, Location.cover_renumber hg]

theorem TestCasesTable.merge_renumber (a b : TestCasesTable) :
    (a.renumber g).merge (b.renumber g) = (a.merge b).renumber g := by
  simp [merge, renumber, Location.cover_renumber hg]

end Tables

namespace Suite

variable {g : Nat → Nat}

theorem addTable_renumber (hg : StrictMono g) (moduleName : Text) (suite : Suite) (table : Table) :
    addTable moduleName (suite.renumber g) (table.renumber g) =
      (addTable moduleName suite table).map (renumber g) := by
  have hname : (table.renumber g).name = table.name := rfl
  simp only [addTable, hname]
  split
  · rfl
  · simp only [renumber, SettingsTable.ofTable_renumber hg,
      mergeWith_map (SettingsTable.merge_renumber hg)]
    rfl
  · simp only [renumber, VariablesTable.ofTable_renumber hg,
      mergeWith_map (VariablesTable.merge_renumber hg)]
    rfl
  · rw [KeywordsTable.ofTable_renumber hg]
    cases KeywordsTable.ofTable moduleName table with
    | error cause => rfl
    | ok read =>
      have hmerge := mergeWith_map (KeywordsTable.merge_renumber hg) suite.keywords? read
      exact congrArg (fun merged => Except.ok { suite.renumber g with keywords? := some merged })
        hmerge
  · rw [TestCasesTable.ofTable_renumber hg]
    cases TestCasesTable.ofTable table with
    | error cause => rfl
    | ok read =>
      have hmerge := mergeWith_map (TestCasesTable.merge_renumber hg) suite.testCases? read
      exact congrArg (fun merged => Except.ok { suite.renumber g with testCases? := some merged })
        hmerge

theorem foldlM_renumber (hg : StrictMono g) (moduleName : Text) (tables : List Table)
    (suite : Suite) :
    (tables.map (Table.renumber g)).foldlM (addTable moduleName) (suite.renumber g) =
      (tables.foldlM (addTable moduleName) suite).map (renumber g) := by
  induction tables generalizing suite with
  | nil => rfl
  | cons table rest ih =>
    simp only [List.map_cons, List.foldlM_cons, addTable_renumber hg]
    cases addTable moduleName suite table with
    | error cause => rfl
    | ok next => exact ih next

theorem spanOf_renumber (hg : StrictMono g) {tables : List Table} (h : tables ≠ []) :
    spanOf (tables.map (Table.renumber g)) = (spanOf tables).renumber g := by
  have hfold (rest : List Table) (span : Span) :
      (rest.map (Table.renumber g)).foldl (fun span table => span.cover table.span)
          (span.renumber g) =
        (rest.foldl (fun span table => span.cover table.span) span).renumber g := by
    induction rest generalizing span with
    | nil => rfl
    | cons table rest ih =>
      rw [List.map_cons, List.foldl_cons, Table.span_renumber hg, Span.cover_renumber hg, ih,
        List.foldl_cons]
  cases tables with
  | nil => exact absurd rfl h
  | cons table rest =>
    rw [List.map_cons, spanOf, Table.span_renumber hg]
    exact hfold rest table.span

/-- The suite of renumbered tables is the renumbered suite. Without tables it would stay at
the start of the text. -/
theorem ofTables_renumber (hg : StrictMono g) (moduleName : Text) {tables : List Table}
    (h : tables ≠ []) :
    ofTables moduleName (tables.map (Table.renumber g)) =
      (ofTables moduleName tables).map (renumber g) := by
  rw [ofTables, spanOf_renumber hg h]
  exact foldlM_renumber hg moduleName tables (.empty (.parsed (spanOf tables)))

end Suite

end SuiteIndex
