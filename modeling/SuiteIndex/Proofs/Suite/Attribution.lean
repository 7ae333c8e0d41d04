import Mathlib.Data.List.DropRight
import Mathlib.Data.List.TakeWhile
import SuiteIndex.Suite.Body

/-! # Statements and their functions

The statements of a table of functions fall into blocks: a statement that begins with a name,
and those down to the next name. Each block is one function. Its statements are its settings
and its steps, in order, and a repeated setting counts where it stands last. The statements
above the first name belong to no function.
-/

namespace SuiteIndex

/-- The place of a statement, and its cells behind the name from the first to the last one
that is filled. -/
structure Clause where
  span : Span
  first : Cell
  rest : List Cell

namespace Clause

def cells (clause : Clause) : List Cell :=
  clause.first :: clause.rest

/-- Cells that are all empty make no clause. -/
def of? (span : Span) (cells : List Cell) : Option Clause :=
  match Cell.trimEmpty cells with
  | first :: rest => some ⟨span, first, rest⟩
  | [] => none

/-- The clause holds these cells up to empty ones at both ends. -/
structure TakenFrom (clause : Clause) (span : Span) (cells : List Cell) : Prop where
  span : clause.span = span
  split : ∃ front back, cells = front ++ clause.cells ++ back ∧
    (∀ cell ∈ front, cell.isEmpty = true) ∧ ∀ cell ∈ back, cell.isEmpty = true
  first : clause.first.isEmpty = false
  last : ∀ cell ∈ clause.cells.getLast?, cell.isEmpty = false

theorem of?_eq_none_iff {span : Span} {cells : List Cell} :
    of? span cells = none ↔ ∀ cell ∈ cells, cell.isEmpty = true := by
  have htrim : Cell.trimEmpty cells = [] ↔ ∀ cell ∈ cells, cell.isEmpty = true := by
    change (cells.dropWhile Cell.isEmpty).rdropWhile Cell.isEmpty = [] ↔ _
    rw [List.rdropWhile_eq_nil_iff]
    constructor
    · intro h cell hcell
      rw [← List.takeWhile_append_dropWhile (p := Cell.isEmpty) (l := cells)] at hcell
      rcases List.mem_append.1 hcell with hcell | hcell
      · exact List.mem_takeWhile_imp hcell
      · exact h cell hcell
    · exact fun h cell hcell => h cell ((List.dropWhile_sublist Cell.isEmpty).subset hcell)
  rw [← htrim, of?]
  cases Cell.trimEmpty cells <;> simp

theorem takenFrom_of? {span : Span} {cells : List Cell} {clause : Clause}
    (h : of? span cells = some clause) : clause.TakenFrom span cells := by
  unfold of? at h
  split at h
  · rename_i first rest htrim
    cases h
    change (cells.dropWhile Cell.isEmpty).rdropWhile Cell.isEmpty = first :: rest at htrim
    have hback := List.rdropWhile_append_rtakeWhile (p := Cell.isEmpty)
      (l := cells.dropWhile Cell.isEmpty)
    have hfront := List.takeWhile_append_dropWhile (p := Cell.isEmpty) (l := cells)
    rw [htrim] at hback
    have hne : cells.dropWhile Cell.isEmpty ≠ [] := by
      rw [← hback]
      exact List.cons_ne_nil _ _
    constructor
    · rfl
    · refine ⟨cells.takeWhile Cell.isEmpty, (cells.dropWhile Cell.isEmpty).rtakeWhile Cell.isEmpty,
        ?_, fun cell hcell => List.mem_takeWhile_imp hcell,
        fun cell hcell => List.mem_rtakeWhile_imp hcell⟩
      rw [Clause.cells, List.append_assoc, hback, hfront]
    · have hhead := List.head_dropWhile_not Cell.isEmpty hne
      have hfirst : (cells.dropWhile Cell.isEmpty).head hne = first := by
        rw [List.head_eq_iff_head?_eq_some, ← hback, List.cons_append, List.head?_cons]
      rwa [hfirst] at hhead
    · intro cell hcell
      have hlast := List.rdropWhile_last_not Cell.isEmpty (cells.dropWhile Cell.isEmpty)
        (htrim ▸ List.cons_ne_nil first rest)
      simp only [htrim] at hlast
      rw [Clause.cells, Option.mem_def,
        List.getLast?_eq_some_getLast (List.cons_ne_nil _ _)] at hcell
      rw [Option.some.inj hcell] at hlast
      simpa using hlast
  · cases h

/-- The setting that a clause carries, if functions of its kind accept it. -/
def setting? (accepted : List Setting) (clause : Clause) : Option Setting :=
  (Setting.ofContent? clause.first.content).filter accepted.contains

/-- The steps of a function: its clauses that carry no setting. -/
def steps (accepted : List Setting) (clauses : List Clause) : List Step :=
  (clauses.filter (·.setting? accepted = none)).filterMap (Step.ofCells? ·.cells)

/-- The last clause that carries a setting. -/
def last? (accepted : List Setting) (setting : Setting) (clauses : List Clause) : Option Clause :=
  (clauses.filter (·.setting? accepted = some setting)).getLast?

/-- A setting as its last clause has it. -/
def read? {α : Type} (ofCells : Cell → List Cell → α) (accepted : List Setting)
    (setting : Setting) (clauses : List Clause) : Option α :=
  (last? accepted setting clauses).map fun clause => ofCells clause.first clause.rest

/-- A location widened by the places of the clauses. -/
def around (location : Location) (clauses : List Clause) : Location :=
  clauses.foldl (fun location clause => location.cover (.parsed clause.span)) location

theorem isSome_ofCells? (clause : Clause) : (Step.ofCells? clause.cells).isSome = true := by
  unfold cells Step.ofCells?
  dsimp only
  split
  · rfl
  · rw [Call.ofCells?]
    rfl

end Clause

/-- The keyword of this name that consists of these clauses. -/
def UserKeyword.assembled (id : Identifier) (clauses : List Clause) : UserKeyword where
  id := id
  steps := Clause.steps Setting.ofKeyword clauses
  documentation := Clause.read? .ofCells Setting.ofKeyword .documentation clauses
  arguments := Clause.read? .ofCells Setting.ofKeyword .arguments clauses
  returned := Clause.read? .ofCells Setting.ofKeyword .returned clauses
  timeout := Clause.read? .ofCells Setting.ofKeyword .timeout clauses
  teardown := Clause.read? .ofCells Setting.ofKeyword .teardown clauses
  tags := Clause.read? .ofCells Setting.ofKeyword .tags clauses
  location := Clause.around id.location clauses

/-- The test case of this name that consists of these clauses. -/
def TestCase.assembled (id : Identifier) (clauses : List Clause) : TestCase where
  id := id
  steps := Clause.steps Setting.ofTestCase clauses
  documentation := Clause.read? .ofCells Setting.ofTestCase .documentation clauses
  setup := Clause.read? .ofCells Setting.ofTestCase .setup clauses
  teardown := Clause.read? .ofCells Setting.ofTestCase .teardown clauses
  template := Clause.read? .ofCells Setting.ofTestCase .template clauses
  timeout := Clause.read? .ofCells Setting.ofTestCase .timeout clauses
  tags := Clause.read? .ofCells Setting.ofTestCase .tags clauses
  location := Clause.around id.location clauses

namespace Clause

variable (accepted : List Setting) (clauses : List Clause)

theorem steps_concat (clause : Clause) : steps accepted (clauses ++ [clause]) =
    if clause.setting? accepted = none then
      steps accepted clauses ++ (Step.ofCells? clause.cells).toList
    else steps accepted clauses := by
  by_cases h : clause.setting? accepted = none
  · cases hstep : Step.ofCells? clause.cells <;> simp [steps, h, hstep]
  · simp [steps, h]

theorem read?_concat {α : Type} (ofCells : Cell → List Cell → α) (setting : Setting)
    (clause : Clause) : read? ofCells accepted setting (clauses ++ [clause]) =
      if clause.setting? accepted = some setting then some (ofCells clause.first clause.rest)
      else read? ofCells accepted setting clauses := by
  by_cases h : clause.setting? accepted = some setting
  · simp [read?, last?, h]
  · simp [read?, last?, h]

theorem around_concat (location : Location) (clause : Clause) :
    around location (clauses ++ [clause]) =
      (around location clauses).cover (.parsed clause.span) := by
  simp [around]

end Clause

/-- Functions that are what their clauses make of them. -/
class Function.Assembles (F : Type) [Function F] where
  assembled : Identifier → List Clause → F
  assembled_nil (id : Identifier) : assembled id [] = named id
  apply_assembled (id : Identifier) (clauses : List Clause) {clause : Clause} {setting : Setting}
    (h : clause.setting? (accepted F) = some setting) :
    apply (widen (assembled id clauses) clause.span) setting clause.cells =
      (assembled id (clauses ++ [clause]), none)
  addStep_assembled (id : Identifier) (clauses : List Clause) {clause : Clause} {step : Step}
    (h : clause.setting? (accepted F) = none) (hstep : Step.ofCells? clause.cells = some step) :
    addStep (widen (assembled id clauses) clause.span) step = assembled id (clauses ++ [clause])

theorem Clause.mem_of_setting? {accepted : List Setting} {clause : Clause} {setting : Setting}
    (h : clause.setting? accepted = some setting) : setting ∈ accepted := by
  simpa using (Option.filter_eq_some_iff.1 h).2

instance : Function.Assembles UserKeyword where
  assembled := UserKeyword.assembled
  assembled_nil _ := rfl
  apply_assembled id clauses clause setting
      (h : clause.setting? Setting.ofKeyword = some setting) := by
    have haccepted := Clause.mem_of_setting? h
    change UserKeyword.apply _ _ _ = _
    cases setting with
    | documentation | arguments | returned | timeout | teardown | tags =>
      simp [UserKeyword.apply, UserKeyword.assembled, Function.widen, Clause.cells,
        Clause.steps_concat, Clause.read?_concat, Clause.around_concat, h]
    | setup | template => simp [Setting.ofKeyword] at haccepted
  addStep_assembled id clauses clause step
      (h : clause.setting? Setting.ofKeyword = none) hstep := by
    simp [UserKeyword.assembled, Function.widen, Function.addStep, Clause.steps_concat,
      Clause.read?_concat, Clause.around_concat, h, hstep]

instance : Function.Assembles TestCase where
  assembled := TestCase.assembled
  assembled_nil _ := rfl
  apply_assembled id clauses clause setting
      (h : clause.setting? Setting.ofTestCase = some setting) := by
    have haccepted := Clause.mem_of_setting? h
    change TestCase.apply _ _ _ = _
    cases setting with
    | documentation | setup | teardown | template | timeout | tags =>
      simp [TestCase.apply, TestCase.assembled, Function.widen, Clause.cells,
        Clause.steps_concat, Clause.read?_concat, Clause.around_concat, h]
    | arguments | returned => simp [Setting.ofTestCase] at haccepted
  addStep_assembled id clauses clause step
      (h : clause.setting? Setting.ofTestCase = none) hstep := by
    simp [TestCase.assembled, Function.widen, Function.addStep, Clause.steps_concat,
      Clause.read?_concat, Clause.around_concat, h, hstep]

/-- A name, the cells behind it in its statement, and the statements down to the next name. -/
structure Block where
  name : Cell
  behind : List Cell
  span : Span
  below : List Statement

namespace Block

def statements (block : Block) : List Statement :=
  ⟨block.name :: block.behind, block.span⟩ :: block.below

def clauses (block : Block) : List Clause :=
  (Clause.of? block.span block.behind).toList ++
    block.below.filterMap fun statement => Clause.of? statement.span statement.cells

def keyword (moduleName : Text) (block : Block) : UserKeyword :=
  .assembled (.declared moduleName (.plain block.name)) block.clauses

def testCase (block : Block) : TestCase :=
  .assembled (.plain block.name) block.clauses

end Block

/-- The statements are cut at the names, each once and in order. -/
structure Attribution (statements orphans : List Statement) (blocks : List Block) : Prop where
  complete : statements = orphans ++ blocks.flatMap Block.statements
  nameless : ∀ statement ∈ orphans, statement.startsFilled = false
  named : ∀ block ∈ blocks, block.name.isEmpty = false
  below : ∀ block ∈ blocks, ∀ statement ∈ block.below, statement.startsFilled = false

theorem exists_attribution (statements : List Statement) :
    ∃ orphans blocks, Attribution statements orphans blocks := by
  induction statements with
  | nil => exact ⟨[], [], rfl, by simp, by simp, by simp⟩
  | cons statement rest ih =>
    obtain ⟨orphans, blocks, hrest, hnameless, hnamed, hbelow⟩ := ih
    by_cases h : statement.startsFilled = true
    · obtain ⟨cells, span⟩ := statement
      cases cells with
      | nil => cases h
      | cons name behind =>
        have hname : name.isEmpty = false := by simpa [Statement.startsFilled] using h
        refine ⟨[], ⟨name, behind, span, orphans⟩ :: blocks, ?_, by simp, ?_, ?_⟩
        · rw [hrest]
          rfl
        · exact List.forall_mem_cons.2 ⟨hname, hnamed⟩
        · exact List.forall_mem_cons.2 ⟨hnameless, hbelow⟩
    · rw [Bool.not_eq_true] at h
      refine ⟨statement :: orphans, blocks, ?_, ?_, hnamed, hbelow⟩
      · rw [hrest]
        rfl
      · exact List.forall_mem_cons.2 ⟨h, hnameless⟩

namespace Function

open Assembles

variable {F : Type} [Function F] {name : Cell → Identifier}

theorem fold_nameless {orphans : List Statement}
    (h : ∀ statement ∈ orphans, statement.startsFilled = false) (rest : List Statement) :
    fold name (none : Option F) (orphans ++ rest) = fold name none rest := by
  induction orphans with
  | nil => rfl
  | cons statement orphans ih =>
    rw [List.forall_mem_cons] at h
    rw [List.cons_append, fold, if_neg (by simp [h.1])]
    exact ih h.2

variable [Assembles F]

theorem addStatement_assembled (id : Identifier) (clauses : List Clause) (clause : Clause) :
    addStatement (assembled id clauses : F) clause.span clause.first clause.rest =
      .ok (assembled id (clauses ++ [clause])) := by
  have hread : (Setting.ofContent? clause.first.content).filter (accepted F).contains =
      clause.setting? (accepted F) := rfl
  rw [addStatement, hread]
  cases h : clause.setting? (accepted F) with
  | some setting =>
    dsimp only
    rw [← Clause.cells, apply_assembled id clauses h]
  | none =>
    obtain ⟨step, hstep⟩ := Option.isSome_iff_exists.1 clause.isSome_ofCells?
    rw [← addStep_assembled id clauses h hstep, ← Clause.cells, hstep]
    rfl

theorem addBody_assembled (id : Identifier) (clauses : List Clause) (span : Span)
    (cells : List Cell) : addBody (some (assembled id clauses : F)) span cells =
      .ok (some (assembled id (clauses ++ (Clause.of? span cells).toList))) := by
  unfold addBody Clause.of?
  cases hcells : Cell.trimEmpty cells with
  | nil => simp
  | cons first rest =>
    simp only [Option.toList_some]
    rw [addStatement_assembled id clauses ⟨span, first, rest⟩]
    rfl

theorem fold_below (id : Identifier) {below : List Statement}
    (h : ∀ statement ∈ below, statement.startsFilled = false) (clauses : List Clause)
    (rest : List Statement) :
    fold name (some (assembled id clauses : F)) (below ++ rest) =
      fold name (some (assembled id (clauses ++
        below.filterMap fun statement => Clause.of? statement.span statement.cells))) rest := by
  induction below generalizing clauses with
  | nil => simp
  | cons statement below ih =>
    rw [List.forall_mem_cons] at h
    rw [List.cons_append, fold, if_neg (by simp [h.1]), addBody_assembled]
    refine (ih h.2 _).trans ?_
    cases hclause : Clause.of? statement.span statement.cells <;> simp [hclause]

theorem fold_blocks {blocks : List Block} (hnamed : ∀ block ∈ blocks, block.name.isEmpty = false)
    (hbelow : ∀ block ∈ blocks, ∀ statement ∈ block.below, statement.startsFilled = false)
    (current : Option F) : fold name current (blocks.flatMap Block.statements) =
      .ok (current.toList ++
        blocks.map fun block => assembled (name block.name) block.clauses) := by
  induction blocks generalizing current with
  | nil => simp [fold]
  | cons block blocks ih =>
    rw [List.forall_mem_cons] at hnamed hbelow
    have hopened : addBody (some (named (name block.name) : F)) block.span block.behind =
        .ok (some (assembled (name block.name) (Clause.of? block.span block.behind).toList)) := by
      rw [← assembled_nil, addBody_assembled, List.nil_append]
    have hrest := @fold_below F _ name _ (name block.name) block.below hbelow.1
      (Clause.of? block.span block.behind).toList (blocks.flatMap Block.statements)
    rw [List.flatMap_cons, Block.statements, List.cons_append, fold,
      if_pos (by simp [Statement.startsFilled, hnamed.1])]
    simp only [List.head?_cons, Option.map_some, List.drop_succ_cons, List.drop_zero, hopened]
    change (fold name _ (block.below ++ _) >>= _) = _
    rw [hrest, ih hnamed.2 hbelow.2]
    rfl

theorem fold_attribution {statements orphans : List Statement} {blocks : List Block}
    (h : Attribution statements orphans blocks) : fold name (none : Option F) statements =
      .ok (blocks.map fun block => assembled (name block.name) block.clauses) := by
  rw [h.complete, fold_nameless h.nameless, fold_blocks h.named h.below]
  rfl

end Function

section

variable {table : Table} {orphans : List Statement} {blocks : List Block}

theorem KeywordsTable.ofTable_attribution (moduleName : Text)
    (h : Attribution (Statement.ofRows .indented table.rows) orphans blocks) :
    ofTable moduleName table = .ok ⟨blocks.map (Block.keyword moduleName), .parsed table.span⟩ := by
  rw [ofTable, Function.ofTable, Function.fold_attribution h]
  rfl

theorem TestCasesTable.ofTable_attribution
    (h : Attribution (Statement.ofRows .indented table.rows) orphans blocks) :
    ofTable table = .ok ⟨blocks.map Block.testCase, .parsed table.span⟩ := by
  rw [ofTable, Function.ofTable, Function.fold_attribution h]
  rfl

end

/-- Whether a table holds keywords or test cases, each of its blocks is one function, named by
the cell that opens the block. A statement with a filled cell behind its name is a clause of the
function above it and of no other; a clause that carries no setting gives one step, and every
setting is read from the last clause that carries it. -/
theorem Function.tables_are_blocks (moduleName : Text) (table : Table) :
    ∃ orphans blocks, Attribution (Statement.ofRows .indented table.rows) orphans blocks ∧
      KeywordsTable.ofTable moduleName table =
        .ok ⟨blocks.map (Block.keyword moduleName), .parsed table.span⟩ ∧
      TestCasesTable.ofTable table = .ok ⟨blocks.map Block.testCase, .parsed table.span⟩ ∧
      (∀ clause : Clause, (Step.ofCells? clause.cells).isSome = true) ∧
      ∀ span cells, (Clause.of? span cells = none ↔ ∀ cell ∈ cells, cell.isEmpty = true) ∧
        ∀ clause, Clause.of? span cells = some clause → clause.TakenFrom span cells := by
  obtain ⟨orphans, blocks, h⟩ := exists_attribution (Statement.ofRows .indented table.rows)
  refine ⟨orphans, blocks, h, ?_, ?_, Clause.isSome_ofCells?,
    fun span cells => ⟨?_, fun clause => ?_⟩⟩
  · exact KeywordsTable.ofTable_attribution moduleName h
  · exact TestCasesTable.ofTable_attribution h
  · exact Clause.of?_eq_none_iff
  · exact Clause.takenFrom_of?

end SuiteIndex
