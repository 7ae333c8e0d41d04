import Mathlib.Data.List.Infix
import Mathlib.Data.List.Perm.Basic
import SuiteIndex.Editor.Outline
import SuiteIndex.Proofs.Text.Split
import SuiteIndex.Proofs.Workspace.Ownership

/-! # Outlines agree with the index

An outline is made from the suite of a file at the time it is asked for, while the index of a
workspace is changed piece by piece as files and libraries come and go. Both list the same
keywords and variables: in every registered module they take the same declarations, and the
index holds what its modules hold. A query only leaves entries out.
-/

namespace SuiteIndex

theorem SourceFile.outline_eq (file : SourceFile) : file.outline =
    file.suite.variableDeclarations.map
        (fun declaration => file.entry declaration.displayName .variable declaration.location) ++
      file.suite.keywords.map
        (fun keyword => file.entry keyword.id.name .keyword keyword.location) ++
      file.suite.testCases.map (fun test => file.entry test.id.name .testCase test.location) := by
  have hfold {α : Type} (entry : α → OutlineEntry) (items : List α) (entries : List OutlineEntry) :
      items.foldl (fun entries item => entries ++ [entry item]) entries =
        entries ++ items.map entry := by
    rw [List.foldl_append_eq_append, ← List.flatMap_def, ← List.map_eq_flatMap]
  rw [outline, Visitor.run_onEnter_suite rfl (fun _ _ => rfl)
    (Visitor.walk_onEnter_table Node.children_variablesTable (fun _ _ => rfl) (fun _ _ _ => rfl) _)
    (Visitor.walk_onEnter_table Node.children_keywordsTable (fun _ _ => rfl) (fun _ _ _ => rfl) _)
    (Visitor.walk_onEnter_table Node.children_testCasesTable (fun _ _ => rfl) (fun _ _ _ => rfl) _)]
  simp only [Suite.elim_variables, Suite.elim_keywords, Suite.elim_testCases, hfold,
    List.nil_append]

/-- The index and the outline list the fields of a suite. The index has its keywords sorted by
their names in lower case and its variables by their reference forms in lower case, those of one
name in the order of their table. The outline has the variables, the keywords and the test cases
in the order of their tables. Arguments and variables that a step assigns are in neither. -/
theorem SourceFile.suite_listed_by_fields (file : SourceFile) (moduleName : Text)
    (origin : Origin) :
    (Symbols.ofSuite moduleName origin file.suite).keywords.items =
      Text.sortOn (fun symbol => Text.lower symbol.name)
        (file.suite.keywords.map (.ofKeyword moduleName origin)) ∧
    (Symbols.ofSuite moduleName origin file.suite).vars.items =
      Text.sortOn (fun symbol => Text.lower symbol.displayName)
        (file.suite.variableDeclarations.map (.ofDeclaration moduleName origin)) ∧
    file.outline =
      file.suite.variableDeclarations.map
          (fun declaration => file.entry declaration.displayName .variable declaration.location) ++
        file.suite.keywords.map
          (fun keyword => file.entry keyword.id.name .keyword keyword.location) ++
        file.suite.testCases.map
          (fun test => file.entry test.id.name .testCase test.location) :=
  ⟨Symbols.items_keywords_ofSuite moduleName origin file.suite,
    Symbols.items_vars_ofSuite moduleName origin file.suite, file.outline_eq⟩

/-- What is shown of a declaration: its name, the path of its file and its place there. -/
abbrev Shown := Text × Option Path × Location

def OutlineEntry.shown (entry : OutlineEntry) : Shown :=
  (entry.name, entry.path, entry.location)

def KeywordSymbol.shown (symbol : KeywordSymbol) : Shown :=
  (symbol.name, symbol.origin.path?, symbol.location)

def VariableSymbol.shown (symbol : VariableSymbol) : Shown :=
  (symbol.displayName, symbol.origin.path?, symbol.location)

theorem SourceFile.shown_keywords (file : SourceFile) :
    (file.outline.filter (·.kind = .keyword)).map OutlineEntry.shown =
      file.suite.keywords.map fun keyword => (keyword.id.name, some file.path, keyword.location) := by
  simp [outline_eq, entry, OutlineEntry.shown, List.filter_map, Function.comp_def]

theorem SourceFile.shown_variables (file : SourceFile) :
    (file.outline.filter (·.kind = .variable)).map OutlineEntry.shown =
      file.suite.variableDeclarations.map fun declaration =>
        (declaration.displayName, some file.path, declaration.location) := by
  simp [outline_eq, entry, OutlineEntry.shown, List.filter_map, Function.comp_def]

theorem Library.shown_keywords (library : Library) :
    (library.outline.filter (·.kind = .keyword)).map OutlineEntry.shown =
      library.symbols.keywords.items.map fun keyword => (keyword.name, none, keyword.location) := by
  simp [outline, OutlineEntry.shown, List.filter_map, Function.comp_def]

theorem Library.shown_variables (library : Library) :
    (library.outline.filter (·.kind = .variable)).map OutlineEntry.shown = [] := by
  simp [outline, List.filter_map, Function.comp_def]

namespace Module

def outline : Module → List OutlineEntry
  | file f => f.outline
  | library l => l.outline

theorem Declared.keywords_perm {m : Module} (h : m.Declared) :
    ((m.outline.filter (·.kind = .keyword)).map OutlineEntry.shown).Perm
      (m.symbols.keywords.items.map KeywordSymbol.shown) := by
  cases h with
  | file path document =>
    have hitems := (Symbols.keywords_perm_ofSuite document.moduleName (.file path)
      document.suite).map KeywordSymbol.shown
    rw [List.map_map] at hitems
    rw [outline, SourceFile.shown_keywords]
    exact hitems.symm
  | library definition =>
    have hfrom := Symbols.from_ofSuite definition.name (.library definition.name)
      (Library.ofDefinition definition).suite
    rw [outline, Library.shown_keywords]
    refine .of_eq (List.map_congr_left fun keyword hkeyword => ?_)
    have horigin := hfrom.keyword_origin _ keyword (hfrom.keywords.mem_get_nameOf hkeyword)
    rw [KeywordSymbol.shown, horigin]
    rfl

theorem Declared.vars_perm {m : Module} (h : m.Declared) :
    ((m.outline.filter (·.kind = .variable)).map OutlineEntry.shown).Perm
      (m.symbols.vars.items.map VariableSymbol.shown) := by
  cases h with
  | file path document =>
    have hitems := (Symbols.vars_perm_ofSuite document.moduleName (.file path)
      document.suite).map VariableSymbol.shown
    rw [List.map_map] at hitems
    rw [outline, SourceFile.shown_variables]
    exact hitems.symm
  | library definition =>
    have hitems := (Symbols.vars_perm_ofSuite definition.name (.library definition.name)
      (Library.ofDefinition definition).suite).map VariableSymbol.shown
    rw [outline, Library.shown_variables]
    exact hitems.symm

end Module

namespace OutlineEntry

/-- Entries are compared by their names in lower case. -/
def key (entry : OutlineEntry) : Text :=
  Text.lower entry.name

theorem isMatch_eq (query : Text) (entry : OutlineEntry) :
    entry.isMatch query = decide (query <:+: entry.key) := by
  rw [Bool.eq_iff_iff, decide_eq_true_eq, isMatch, Bool.or_eq_true, Text.contains_iff,
    List.isEmpty_iff, key]
  constructor
  · rintro (rfl | h)
    · exact List.nil_infix
    · exact h
  · exact .inr

end OutlineEntry

namespace Workspace

variable {workspace : Workspace} {modules : List Module}

/-- The entries of all files and of all libraries. -/
def listed (workspace : Workspace) : List OutlineEntry :=
  workspace.files.flatMap SourceFile.outline ++ workspace.libraries.flatMap Library.outline

theorem search_eq (workspace : Workspace) (query : Text) : workspace.search query =
    Text.sortOn OutlineEntry.key
      (workspace.listed.filter fun entry => decide (Text.lower query <:+: entry.key)) := by
  simp only [← OutlineEntry.isMatch_eq]
  rfl

theorem search_nil (workspace : Workspace) :
    workspace.search [] = Text.sortOn OutlineEntry.key workspace.listed := by
  have hnil : Text.lower [] = [] := rfl
  simp [search_eq, hnil]

theorem Tracks.listed_perm (h : workspace.Tracks modules) :
    workspace.listed.Perm (modules.flatMap Module.outline) := by
  have hlisted : workspace.listed = workspace.modules.flatMap Module.outline := by
    simp only [listed, Workspace.modules, List.flatMap_append, List.flatMap_map]
    rfl
  rw [hlisted]
  exact h.perm_modules.flatMap_right _

/-- What the modules list of one kind is what they hold of it, so all of them together list
what the index holds. -/
theorem Tracks.search_perm {α : Type} [Keyed α] (h : workspace.Tracks modules) {kind : SymbolKind}
    {part : Module → Container α} {container : Container α} {shown : α → Shown}
    (hpart : ∀ m ∈ modules, ((m.outline.filter (·.kind = kind)).map OutlineEntry.shown).Perm
      ((part m).items.map shown))
    (hcontainer : container.items.Perm ((modules.map part).flatMap Container.items)) :
    (((workspace.search []).filter (·.kind = kind)).map OutlineEntry.shown).Perm
      (container.items.map shown) := by
  have hlisted : (workspace.search []).Perm (modules.flatMap Module.outline) := by
    rw [search_nil]
    exact (Text.sortOn_perm _ _).trans h.listed_perm
  refine ((hlisted.filter _).map _).trans (.trans ?_ (hcontainer.map shown).symm)
  rw [List.filter_flatMap, List.map_flatMap, List.flatMap_map, List.map_flatMap]
  exact List.Perm.flatMap_left modules hpart

/-- The search without a query lists the keywords and variables of the index, each of them
once. A query leaves only those entries in place whose names contain it, whatever the case. -/
theorem search_agrees_with_symbols (h : workspace.Reachable) :
    (((workspace.search []).filter (·.kind = .keyword)).map OutlineEntry.shown).Perm
      (workspace.symbols.keywords.items.map KeywordSymbol.shown) ∧
    (((workspace.search []).filter (·.kind = .variable)).map OutlineEntry.shown).Perm
      (workspace.symbols.vars.items.map VariableSymbol.shown) ∧
    ∀ query,
      ((workspace.search query).Pairwise fun a b => Text.lower a.name ≤ Text.lower b.name) ∧
      workspace.search query = (workspace.search []).filter fun entry =>
        Text.lower query <:+: Text.lower entry.name := by
  obtain ⟨modules, htracks, hdeclared⟩ := h.exists_declared
  have hindex := htracks.index
  refine ⟨?_, ?_, fun query => ⟨?_, ?_⟩⟩
  · exact htracks.search_perm (fun m hm => (hdeclared m hm).keywords_perm)
      (hindex.keywords.items_perm hindex.valid_keywords)
  · exact htracks.search_perm (fun m hm => (hdeclared m hm).vars_perm)
      (hindex.vars.items_perm hindex.valid_vars)
  · rw [search_eq]
    exact Text.pairwise_sortOn OutlineEntry.key _
  · rw [search_eq, search_nil, Text.sortOn_filter]
    rfl

/-- A file that was replaced, beside a library with a keyword of the same name. -/
theorem search_agrees_with_symbols_of_replaced :
    let find : KeywordDefinition := ⟨"FIND".toList, .list [], []⟩
    let workspace := run [.addFile (.ofText "b//a.robot".toList) "*** Keywords ***\nOld".toList,
      .addLibrary ⟨"Lib".toList, [], [find]⟩,
      .addFile (.ofText "b//a.robot".toList) "*** Variables ***\n$\x7bX\x7d\n*** Keywords ***\nFind".toList]
    workspace.Reachable ∧ (workspace.search []).length = 3 ∧
      (((workspace.search []).filter (·.kind = .keyword)).map OutlineEntry.shown).Perm
        (workspace.symbols.keywords.items.map KeywordSymbol.shown) ∧
      workspace.search "In".toList = (workspace.search []).filter fun entry =>
        Text.lower "In".toList <:+: Text.lower entry.name := by
  intro find workspace
  have hreachable : workspace.Reachable := reachable_run _
  obtain ⟨hkeywords, -, hqueries⟩ := search_agrees_with_symbols hreachable
  refine ⟨hreachable, ?_, hkeywords, (hqueries _).2⟩
  rw [search_nil, (Text.sortOn_perm _ _).length_eq]
  dsimp only [workspace, find]
  decide +kernel

end Workspace

end SuiteIndex
