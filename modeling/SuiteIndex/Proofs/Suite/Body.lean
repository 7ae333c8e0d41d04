import SuiteIndex.Proofs.Suite.Setting

/-! # Locations of keywords and test cases

A function is widened by every statement it takes in, so it keeps enclosing its name, its
settings and its steps. Settings it does not accept become steps, and reading never fails.
-/

namespace SuiteIndex
open Node

/-- How a function appears as a node, and how its operations change that node. -/
class Function.Lawful (F : Type) [Function F] where
  node : F → Node
  location_named (id : Identifier) : (node (named id)).location = id.location
  children_named (id : Identifier) : (node (named id)).children = [identifier id]
  location_widen (function : F) (span : Span) :
    (node (widen function span)).location = (node function).location.cover (.parsed span)
  children_widen (function : F) (span : Span) :
    (node (widen function span)).children = (node function).children
  location_addStep (function : F) (step : Step) :
    (node (addStep function step)).location = (node function).location
  children_addStep (function : F) (step : Step) :
    (node (addStep function step)).children = (node function).children ++ [.step step]
  apply_accepted (function : F) {setting : Setting} (h : setting ∈ accepted F) (name : Cell)
    (values : List Cell) : ∃ changed, apply function setting (name :: values) = (changed, none) ∧
      (node changed).location = (node function).location ∧
      ∀ child ∈ (node changed).children,
        child ∈ (node function).children ∨ child.ReadFrom (name :: values)

theorem UserKeyword.apply_accepted (keyword : UserKeyword) {setting : Setting}
    (h : setting ∈ Setting.ofKeyword) (name : Cell) (values : List Cell) :
    ∃ changed, keyword.apply setting (name :: values) = (changed, none) ∧
      changed.location = keyword.location ∧
      ∀ child ∈ (userKeyword changed).children,
        child ∈ (userKeyword keyword).children ∨ child.ReadFrom (name :: values) := by
  cases setting with
  | documentation | arguments | returned | timeout | teardown | tags =>
    refine ⟨_, rfl, rfl, fun child => mem_children_of_fields (p := ReadFrom (name :: values)) ?_⟩
    simp +contextual [fields]
  | setup | template => simp [Setting.ofKeyword] at h

theorem TestCase.apply_accepted (testCase : TestCase) {setting : Setting}
    (h : setting ∈ Setting.ofTestCase) (name : Cell) (values : List Cell) :
    ∃ changed, testCase.apply setting (name :: values) = (changed, none) ∧
      changed.location = testCase.location ∧
      ∀ child ∈ (Node.testCase changed).children,
        child ∈ (Node.testCase testCase).children ∨ child.ReadFrom (name :: values) := by
  cases setting with
  | documentation | setup | teardown | template | timeout | tags =>
    refine ⟨_, rfl, rfl, fun child => mem_children_of_fields (p := ReadFrom (name :: values)) ?_⟩
    simp +contextual [fields]
  | arguments | returned => simp [Setting.ofTestCase] at h

instance : Function.Lawful UserKeyword where
  node := userKeyword
  location_named _ := rfl
  children_named _ := rfl
  location_widen _ _ := rfl
  children_widen _ _ := rfl
  location_addStep _ _ := rfl
  children_addStep _ _ := by simp [children_eq, fields, Function.addStep]
  apply_accepted keyword _ h := keyword.apply_accepted h

instance : Function.Lawful TestCase where
  node := testCase
  location_named _ := rfl
  children_named _ := rfl
  location_widen _ _ := rfl
  children_widen _ _ := rfl
  location_addStep _ _ := rfl
  children_addStep _ _ := by simp [children_eq, fields, Function.addStep]
  apply_accepted testCase _ h := testCase.apply_accepted h

theorem Cell.trimEmpty_sublist (cells : List Cell) : (Cell.trimEmpty cells).Sublist cells := by
  have hback := (List.dropWhile_sublist (l := (cells.dropWhile isEmpty).reverse) isEmpty).reverse
  rw [List.reverse_reverse] at hback
  exact hback.trans (List.dropWhile_sublist isEmpty)

namespace Function

variable {F : Type} [Function F] [Lawful F]

open Lawful

/-- Taking in a statement widens a function by it and adds what is read from its cells. -/
theorem addStatement_ok (function : F) (span : Span) (first : Cell) (rest : List Cell) :
    ∃ changed, addStatement function span first rest = .ok changed ∧
      (node changed).location = (node function).location.cover (.parsed span) ∧
      ∀ child ∈ (node changed).children,
        child ∈ (node function).children ∨ child.ReadFrom (first :: rest) := by
  have hlocation := location_widen function span
  have hchildren := children_widen function span
  unfold addStatement
  dsimp only
  split
  · rename_i setting hsetting
    have haccepted : setting ∈ accepted F := by
      simpa using (Option.filter_eq_some_iff.1 hsetting).2
    obtain ⟨changed, hchanged, hkept, hnew⟩ :=
      apply_accepted (widen function span) haccepted first rest
    exact ⟨changed, by rw [hchanged], hkept.trans hlocation, hchildren ▸ hnew⟩
  · refine ⟨_, rfl, ?_⟩
    cases hstep : Step.ofCells? (first :: rest) with
    | none => exact ⟨hlocation, fun child hchild => .inl (hchildren ▸ hchild)⟩
    | some step =>
      constructor
      · exact (location_addStep _ _).trans hlocation
      · intro child hchild
        rw [Option.elim_some, children_addStep, hchildren] at hchild
        refine (List.mem_append.1 hchild).imp id fun hchild => ?_
        obtain rfl := List.mem_singleton.1 hchild
        exact fun outer h => Step.nests_ofCells? h step hstep

theorem addBody_ok (function? : Option F) (span : Span) (cells : List Cell) :
    ∃ changed?, addBody function? span cells = .ok changed? ∧
      ∀ outer, span ≤ outer → Cell.Inside span cells →
        (∀ function ∈ function?, Nests outer (node function)) →
        ∀ changed ∈ changed?, Nests outer (node changed) := by
  unfold addBody
  split
  · rename_i function first rest hcells
    obtain ⟨changed, hchanged, hlocation, hchildren⟩ := addStatement_ok function span first rest
    refine ⟨some changed, by rw [hchanged]; rfl, fun outer hspan hinside hnests => ?_⟩
    have hread := hinside.sublist (hcells ▸ Cell.trimEmpty_sublist cells)
    rintro _ ⟨⟩
    apply (hnests function rfl).widen hspan hlocation
    intro child hchild
    exact (hchildren child hchild).imp id fun hnew => hnew span hread
  · exact ⟨_, rfl, fun outer _ _ hnests => hnests⟩

theorem nests_named {outer : Span} {name : Cell → Identifier}
    (hname : ∀ cell, (name cell).location = cell.location) {cell : Cell} (hfits : cell.Fits)
    (hwithin : cell.span ≤ outer) : Nests outer (node (named (name cell) : F)) := by
  apply nests_of_cell hfits hwithin ((location_named _).trans (hname cell))
  intro child hchild
  rw [children_named] at hchild
  obtain rfl := List.mem_singleton.1 hchild
  exact nests_of_cell hfits le_rfl (hname cell) (by simp)

/-- Functions are read from any statements, and nest inside a span around these. -/
theorem fold_ok (name : Cell → Identifier) (current : Option F) (statements : List Statement) :
    ∃ functions, fold name current statements = .ok functions ∧
      ∀ outer, (∀ cell, (name cell).location = cell.location) →
        (∀ statement ∈ statements, statement.Placed outer) →
        (∀ function ∈ current, Nests outer (node function)) →
        ∀ function ∈ functions, Nests outer (node function) := by
  induction statements generalizing current with
  | nil =>
    refine ⟨current.toList, rfl, fun outer _ _ hcurrent function hfunction => ?_⟩
    exact hcurrent function (Option.mem_toList.1 hfunction)
  | cons statement statements ih =>
    unfold fold
    split
    · obtain ⟨next, hnext, hbody⟩ := addBody_ok
        (statement.cells.head?.map fun cell => (named (name cell) : F)) statement.span
        (statement.cells.drop 1)
      obtain ⟨functions, hfunctions, hrest⟩ := ih next
      refine ⟨current.toList ++ functions, ?_, fun outer hname hstatements hcurrent => ?_⟩
      · dsimp only
        rw [hnext]
        change (fold name next statements >>= _) = _
        rw [hfunctions]
        rfl
      · rw [List.forall_mem_cons] at hstatements
        obtain ⟨hfirst, hstatements⟩ := hstatements
        intro function hfunction
        rcases List.mem_append.1 hfunction with hfunction | hfunction
        · exact hcurrent function (Option.mem_toList.1 hfunction)
        · refine hrest outer hname hstatements ?_ function hfunction
          apply hbody outer hfirst.within (hfirst.inside.sublist (List.drop_sublist 1 _))
          intro opened hopened
          obtain ⟨cell, hcell, rfl⟩ := Option.map_eq_some_iff.1 hopened
          have hmem := List.mem_of_mem_head? hcell
          exact nests_named hname (hfirst.inside.fits cell hmem)
            ((hfirst.inside.within cell hmem).trans hfirst.within)
    · obtain ⟨next, hnext, hbody⟩ := addBody_ok current statement.span statement.cells
      obtain ⟨functions, hfunctions, hrest⟩ := ih next
      refine ⟨functions, ?_, fun outer hname hstatements hcurrent => ?_⟩
      · rw [hnext]
        exact hfunctions
      · rw [List.forall_mem_cons] at hstatements
        obtain ⟨hfirst, hstatements⟩ := hstatements
        apply hrest outer hname hstatements
        exact hbody outer hfirst.within hfirst.inside hcurrent

theorem ofTable_ok (name : Cell → Identifier) (table : Table) :
    ∃ functions : List F, ofTable name table = .ok functions ∧
      (table.Sound → (∀ cell, (name cell).location = cell.location) →
        ∀ function ∈ functions, Nests table.span (node function)) := by
  obtain ⟨functions, hfunctions, hnests⟩ :=
    fold_ok name (none : Option F) (Statement.ofRows .indented table.rows)
  refine ⟨functions, hfunctions, fun hsound hname => ?_⟩
  apply hnests table.span hname
  · exact fun statement h => Statement.placed_of_mem_ofRows hsound h
  · simp

end Function

end SuiteIndex
