import SuiteIndex.Proofs.Suite.Layout

/-! # The entries of a suite share no position

A function takes in statements one after another, each standing behind what it has read
before. A setting that is given again replaces the earlier one, and tables of one kind are
merged, so what a suite keeps is a part of all that was read, in another order. Statements
and tables are separated, and therefore the entries of all tables of a text are laid.
-/

namespace SuiteIndex
open Node

theorem UserKeyword.apply_laidFrom {keyword changed : UserKeyword} {setting : Setting}
    {name : Cell} {values : List Cell} (h : keyword.apply setting (name :: values) = (changed, none)) :
    ∃ added, (userKeyword changed).children.Subperm ((userKeyword keyword).children ++ [added]) ∧
      LaidFrom (name :: values) [added] := by
  cases setting with
  | documentation =>
    cases h
    exact ⟨_, subperm_of_replaced 1 rfl rfl, Documentation.laidFrom_ofCells name values⟩
  | arguments =>
    cases h
    exact ⟨_, subperm_of_replaced 2 rfl rfl, Arguments.laidFrom_ofCells name values⟩
  | returned =>
    cases h
    exact ⟨_, subperm_of_replaced 3 rfl rfl, Returned.laidFrom_ofCells name values⟩
  | timeout =>
    cases h
    exact ⟨_, subperm_of_replaced 4 rfl rfl, Timeout.laidFrom_ofCells name values⟩
  | teardown =>
    cases h
    exact ⟨_, subperm_of_replaced 5 rfl rfl, Hook.laidFrom_teardown name values⟩
  | tags =>
    cases h
    exact ⟨_, subperm_of_replaced 6 rfl rfl, Tags.laidFrom_ofCells name values⟩
  | setup | template => cases h

theorem TestCase.apply_laidFrom {test changed : TestCase} {setting : Setting}
    {name : Cell} {values : List Cell} (h : test.apply setting (name :: values) = (changed, none)) :
    ∃ added, (testCase changed).children.Subperm ((testCase test).children ++ [added]) ∧
      LaidFrom (name :: values) [added] := by
  cases setting with
  | documentation =>
    cases h
    exact ⟨_, subperm_of_replaced 1 rfl rfl, Documentation.laidFrom_ofCells name values⟩
  | setup =>
    cases h
    exact ⟨_, subperm_of_replaced 2 rfl rfl, Hook.laidFrom_setup name values⟩
  | teardown =>
    cases h
    exact ⟨_, subperm_of_replaced 3 rfl rfl, Hook.laidFrom_teardown name values⟩
  | template =>
    cases h
    exact ⟨_, subperm_of_replaced 4 rfl rfl, TemplateSetting.laidFrom_ofCells name values⟩
  | timeout =>
    cases h
    exact ⟨_, subperm_of_replaced 5 rfl rfl, Timeout.laidFrom_ofCells name values⟩
  | tags =>
    cases h
    exact ⟨_, subperm_of_replaced 6 rfl rfl, Tags.laidFrom_ofCells name values⟩
  | arguments | returned => cases h

namespace Function

open Lawful

/-- A setting that is given to a function adds one tree, read from its cells. -/
class Separated (F : Type) [Function F] [Lawful F] : Prop where
  apply_laidFrom {function changed : F} {setting : Setting} {name : Cell} {values : List Cell}
    (h : apply function setting (name :: values) = (changed, none)) :
    ∃ added, (node changed).children.Subperm ((node function).children ++ [added]) ∧
      LaidFrom (name :: values) [added]

instance : Separated UserKeyword := ⟨UserKeyword.apply_laidFrom⟩

instance : Separated TestCase := ⟨TestCase.apply_laidFrom⟩

variable {F : Type} [Function F] [Lawful F]

/-- The function spans `span`, and its children are laid there. -/
structure Stands (function : F) (span : Span) : Prop where
  location : (node function).location = .parsed span
  ordered : span.start ≤ span.stop
  laid : Laid span (node function).children

theorem Stands.laid_node {function : F} {span outer : Span} (h : Stands function span)
    (hle : span ≤ outer) : Laid outer [node function] :=
  .single (.intro h.location h.ordered hle h.laid.nests) h.laid.tidy_of_children

theorem Stands.widen {function changed : F} {before span : Span} {added : List Node}
    (h : Stands function before)
    (hlocation : (node changed).location = (node function).location.cover (.parsed span))
    (hsub : (node changed).children.Subperm ((node function).children ++ added))
    (hlaid : Laid (before.cover span) ((node function).children ++ added)) :
    Stands changed (before.cover span) where
  location := by rw [hlocation, h.location, Location.cover]
  ordered := Span.start_le_stop_of_le (Span.le_cover_left before span) h.ordered
  laid := hlaid.subperm hsub

variable [Separated F]

theorem addStatement_grows {function changed : F} {span : Span} {first : Cell} {rest : List Cell}
    (h : addStatement function span first rest = .ok changed) :
    (node changed).location = (node function).location.cover (.parsed span) ∧
      ∃ added, (node changed).children.Subperm ((node function).children ++ added) ∧
        LaidFrom (first :: rest) added := by
  constructor
  · obtain ⟨other, hother, hlocation, -⟩ := addStatement_ok function span first rest
    cases h.symm.trans hother
    exact hlocation
  · have hchildren := children_widen function span
    unfold addStatement at h
    dsimp only at h
    split at h
    · split at h
      · rename_i happly
        cases h
        obtain ⟨added, hsub, hlaid⟩ := Separated.apply_laidFrom happly
        exact ⟨[added], hchildren ▸ hsub, hlaid⟩
      · cases h
    · cases h
      have hlaid := Step.laidFrom_ofCells? (first :: rest)
      refine ⟨_, ?_, hlaid⟩
      cases Step.ofCells? (first :: rest) with
      | none => simp [hchildren, List.Subperm.refl]
      | some step => simp [children_addStep, hchildren, List.Subperm.refl]

theorem addBody_grows {function? : Option F} {changed : F} {span : Span} {cells : List Cell}
    (h : addBody function? span cells = .ok (some changed)) :
    ∃ function ∈ function?, changed = function ∨
      (node changed).location = (node function).location.cover (.parsed span) ∧
        ∃ added, (node changed).children.Subperm ((node function).children ++ added) ∧
          LaidFrom cells added := by
  unfold addBody at h
  split at h
  · rename_i function first rest hcells
    cases hadd : addStatement function span first rest with
    | error cause => simp [hadd, Except.map] at h
    | ok next =>
      obtain rfl : next = changed := by simpa [hadd, Except.map] using h
      obtain ⟨hlocation, added, hsub, hlaid⟩ := addStatement_grows hadd
      have htrim : (first :: rest).Sublist cells := hcells ▸ Cell.trimEmpty_sublist cells
      exact ⟨function, rfl, .inr ⟨hlocation, added, hsub, hlaid.sublist htrim⟩⟩
  · cases h
    exact ⟨changed, rfl, .inl rfl⟩

theorem stands_addBody {function? : Option F} {changed : F} {statement : Statement} {outer : Span}
    (hplaced : statement.Placed outer)
    (hcurrent : ∀ function ∈ function?, ∃ before, Stands function before ∧ before ≤ outer ∧
      before.stop < statement.span.start)
    (h : addBody function? statement.span statement.cells = .ok (some changed)) :
    ∃ span, Stands changed span ∧ span ≤ outer ∧ span.stop ≤ statement.span.stop := by
  obtain ⟨function, hfunction, hgrows⟩ := addBody_grows h
  obtain ⟨before, hstands, hle, hcut⟩ := hcurrent function hfunction
  rcases hgrows with rfl | ⟨hlocation, added, hsub, hlaid⟩
  · exact ⟨before, hstands, hle, hcut.le.trans hplaced.ordered⟩
  · have hboth := hstands.laid.append (hlaid.laid _ hplaced.inside) hcut
      (Span.le_cover_left before statement.span) (Span.le_cover_right before statement.span)
    refine ⟨_, hstands.widen hlocation hsub hboth, Span.cover_le_iff.2 ⟨hle, hplaced.within⟩, ?_⟩
    simp only [Span.cover, Position.later_eq_max, max_le_iff, le_refl, and_true]
    exact hcut.le.trans hplaced.ordered

theorem stands_addBody_named {name : Cell → Identifier}
    (hname : ∀ cell, (name cell).location = cell.location) {changed : F} {statement : Statement}
    {outer : Span} (hplaced : statement.Placed outer)
    (h : addBody (statement.cells.head?.map fun cell => (named (name cell) : F)) statement.span
      (statement.cells.drop 1) = .ok (some changed)) :
    ∃ span, Stands changed span ∧ span ≤ statement.span := by
  obtain ⟨function, hfunction, hgrows⟩ := addBody_grows h
  obtain ⟨cell, hcell, rfl⟩ := Option.map_eq_some_iff.1 hfunction
  obtain ⟨rest, hcells⟩ := List.head?_eq_some_iff.1 hcell
  have hinside := hplaced.inside
  rw [hcells] at hgrows hinside
  have hfits := hinside.fits cell List.mem_cons_self
  have hwithin := hinside.within cell List.mem_cons_self
  have hid : LaidFrom [cell] [identifier (name cell)] := by
    refine LaidFrom.single (fun outer h => ?_) (fun _ _ => .plain rfl) (List.cons_ne_nil _ _)
    exact nests_of_cell hfits (h.within cell List.mem_cons_self) (hname cell) (by simp)
  have hchildren := children_named (F := F) (name cell)
  have hstands : Stands (named (name cell) : F) cell.span := by
    refine ⟨(location_named _).trans (hname cell), hfits.ordered, ?_⟩
    rw [hchildren]
    exact hid.laid _ ⟨by simpa using hfits, List.pairwise_singleton _ _, by simp⟩
  rcases hgrows with rfl | ⟨hlocation, added, hsub, hlaid⟩
  · exact ⟨cell.span, hstands, hwithin⟩
  · have hboth := (hid.append hlaid).laid _ (hinside.mono (Span.le_cover_right cell.span _))
    rw [← hchildren] at hboth
    exact ⟨_, hstands.widen hlocation hsub hboth, Span.cover_le_iff.2 ⟨hwithin, le_rfl⟩⟩

/-- The functions of separated statements share no position. Those below a name are laid
between it and the end. -/
theorem laid_fold {name : Cell → Identifier} (hname : ∀ cell, (name cell).location = cell.location)
    {current : Option F} {statements : List Statement} {functions : List F} {outer : Span}
    (hplaced : ∀ statement ∈ statements, statement.Placed outer)
    (hordered : statements.Pairwise fun a b => a.span.stop < b.span.start)
    (hcurrent : ∀ function ∈ current, ∃ before, Stands function before ∧ before ≤ outer ∧
      ∀ statement ∈ statements, before.stop < statement.span.start)
    (h : fold name current statements = .ok functions) : Laid outer (functions.map node) := by
  induction statements generalizing current functions outer with
  | nil =>
    cases h
    cases current with
    | none => exact Laid.nil outer
    | some function =>
      obtain ⟨before, hstands, hle, -⟩ := hcurrent function rfl
      exact hstands.laid_node hle
  | cons statement statements ih =>
    rw [List.forall_mem_cons] at hplaced
    obtain ⟨hfirst, hplaced⟩ := hplaced
    obtain ⟨hbelow, hordered⟩ := List.pairwise_cons.1 hordered
    unfold fold at h
    split at h
    · obtain ⟨next, hnext, -⟩ := addBody_ok
        (statement.cells.head?.map fun cell => (named (name cell) : F)) statement.span
        (statement.cells.drop 1)
      obtain ⟨others, hothers, -⟩ := fold_ok name next statements
      dsimp only at h
      rw [hnext] at h
      change (fold name next statements >>= _) = _ at h
      rw [hothers] at h
      cases h
      let rest : Span := ⟨statement.span.start, outer.stop⟩
      have hrest : rest ≤ outer := ⟨hfirst.within.1, le_rfl⟩
      have hlaid : Laid rest (others.map node) := by
        refine ih (fun other hother => ?_) hordered (fun function hfunction => ?_) hothers
        · have hother' := hplaced other hother
          have hstart := hfirst.ordered.trans (hbelow other hother).le
          exact ⟨hother'.ordered, ⟨hstart, hother'.within.2⟩, hother'.inside⟩
        · obtain rfl : next = some function := hfunction
          obtain ⟨span, hstands, hle⟩ := stands_addBody_named hname hfirst hnext
          exact ⟨span, hstands, hle.trans ⟨le_rfl, hfirst.within.2⟩,
            fun other hother => hle.2.trans_lt (hbelow other hother)⟩
      rw [List.map_append]
      cases current with
      | none => exact hlaid.mono hrest
      | some function =>
        obtain ⟨before, hstands, hle, hcut⟩ := hcurrent function rfl
        exact (hstands.laid_node le_rfl).append hlaid (hcut statement List.mem_cons_self) hle hrest
    · obtain ⟨next, hnext, -⟩ := addBody_ok current statement.span statement.cells
      rw [hnext] at h
      refine ih hplaced hordered (fun function hfunction => ?_) h
      obtain rfl : next = some function := hfunction
      have hbefore (function) (hfunction : function ∈ current) : ∃ before,
          Stands function before ∧ before ≤ outer ∧ before.stop < statement.span.start := by
        obtain ⟨before, hstands, hle, hcut⟩ := hcurrent function hfunction
        exact ⟨before, hstands, hle, hcut statement List.mem_cons_self⟩
      obtain ⟨span, hstands, hle, hstop⟩ := stands_addBody hfirst hbefore hnext
      exact ⟨span, hstands, hle, fun other hother => hstop.trans_lt (hbelow other hother)⟩

theorem laid_ofTable {name : Cell → Identifier}
    (hname : ∀ cell, (name cell).location = cell.location) {table : Table} (hsound : table.Sound)
    {functions : List F} (h : ofTable name table = .ok functions) :
    Laid table.span (functions.map node) :=
  laid_fold hname (fun _ => Statement.placed_of_mem_ofRows hsound)
    (Statement.pairwise_ofRows hsound .indented) (by simp) h

end Function

theorem KeywordsTable.laid_ofTable {moduleName : Text} {table : Table} (hsound : table.Sound)
    {read : KeywordsTable} (h : ofTable moduleName table = .ok read) :
    Laid table.span (keywordsTable read).children := by
  obtain ⟨keywords, hkeywords, -⟩ := Function.ofTable_ok (F := UserKeyword)
    (fun cell => .declared moduleName (.plain cell)) table
  rw [ofTable, hkeywords] at h
  cases h
  simp only [children_eq, fields, List.flatMap_cons, List.flatMap_nil, List.append_nil]
  refine Function.laid_ofTable (fun cell => ?_) hsound hkeywords
  unfold Identifier.declared
  split <;> rfl

theorem TestCasesTable.laid_ofTable {table : Table} (hsound : table.Sound)
    {read : TestCasesTable} (h : ofTable table = .ok read) :
    Laid table.span (testCasesTable read).children := by
  obtain ⟨testCases, htestCases, -⟩ := Function.ofTable_ok (F := TestCase) .plain table
  rw [ofTable, htestCases] at h
  cases h
  simp only [children_eq, fields, List.flatMap_cons, List.flatMap_nil, List.append_nil]
  exact Function.laid_ofTable (fun _ => rfl) hsound htestCases

theorem Statement.Placed.self {outer : Span} {statement : Statement} (h : statement.Placed outer) :
    statement.Placed statement.span :=
  ⟨h.ordered, le_rfl, h.inside⟩

namespace VariablesTable

theorem uses_of_mem_values? {cells : List Cell} {kind : VariableKind} {values : List Expression}
    (h : values? cells kind = some values) {value : Expression} (hvalue : value ∈ values) :
    (ofExpression value).uses = [] := by
  cases kind with
  | scalar =>
    obtain rfl := Option.some.inj h
    obtain ⟨cell, -, rfl⟩ := Option.map_eq_some_iff.1 (Option.mem_toList.1 hvalue)
    exact Expression.uses_ofCell cell
  | list =>
    obtain rfl := Option.some.inj h
    obtain ⟨cell, -, rfl⟩ := List.mem_map.1 hvalue
    exact Expression.uses_ofCell cell
  | dictionary =>
    obtain rfl := Option.some.inj h
    obtain ⟨cell, -, rfl⟩ := List.mem_map.1 hvalue
    rfl
  | environment => cases h

theorem uses_declaration? {statement : Statement} {declaration : Declaration}
    (h : declaration? statement = some declaration) :
    (variableDeclaration declaration).uses = [] := by
  unfold declaration? at h
  split at h
  · cases h
  simp only [Option.bind_eq_bind, Option.bind_eq_some_iff] at h
  obtain ⟨name, -, target, -, values, hvalues, h⟩ := h
  obtain rfl := Option.some.inj h
  rw [uses_eq]
  simpa [used, children_eq, fields, List.flatMap_map] using fun value => uses_of_mem_values? hvalues

theorem laid_ofTable {table : Table} (hsound : table.Sound) :
    Laid table.span (variablesTable (.ofTable table)).children := by
  let read (statement : Statement) : List Node :=
    (declaration? statement).toList.map variableDeclaration
  have hplaced (statement : Statement) (h : statement ∈ Statement.ofRows .firstCell table.rows) :=
    Statement.placed_of_mem_ofRows hsound h
  have hchildren : (variablesTable (.ofTable table)).children =
      (Statement.ofRows .firstCell table.rows).flatMap read := by
    simp [children_eq, fields, ofTable, read, List.filterMap_eq_flatMap_toList, List.map_flatMap]
  rw [hchildren]
  refine Laid.flatMap (fun statement hstatement => ?_)
    (Statement.pairwise_ofRows hsound .firstCell) fun statement h => (hplaced statement h).within
  cases hread : declaration? statement with
  | none => simpa [read, hread] using Laid.nil statement.span
  | some declaration =>
    have hnests := nests_declaration? (hplaced statement hstatement).self hread
    simpa [read, hread] using Laid.single hnests (.plain (uses_declaration? hread))

end VariablesTable

section

variable (target : Cell) (rest : List Cell) (location : Location)

theorem LibraryImport.uses_ofCells :
    (libraryImport (.ofCells target rest location)).uses = [] := by
  rw [uses_eq]
  simp [used, children_eq, fields, ofCells, List.flatMap_map]

theorem VariableImport.uses_ofCells :
    (variableImport ⟨.ofCell target, rest.map Expression.ofCell, location⟩).uses = [] := by
  rw [uses_eq]
  simp [used, children_eq, fields, List.flatMap_map]

end

namespace SettingsTable

theorem exists_added_set (name : Cell) (values : List Cell) (span : Span) (setting : SuiteSetting) :
    ∃ added : List Node,
      (∀ table : SettingsTable,
        (settingsTable (table.set name values (.parsed span) setting)).children.Subperm
          ((settingsTable table).children ++ added)) ∧
      (span.start ≤ span.stop → Cell.Inside span (name :: values) → Laid span added) := by
  have hvalues (h : Cell.Inside span (name :: values)) :=
    h.sublist (List.sublist_cons_self name values)
  cases setting with
  | library =>
    cases values with
    | nil => exact ⟨[], fun _ => (List.sublist_append_left _ _).subperm, fun _ _ => Laid.nil span⟩
    | cons target rest =>
      refine ⟨[libraryImport (.ofCells target rest (.parsed span))], fun table => ?_,
        fun hordered h => Laid.single (LibraryImport.nests_ofCells (hvalues h) hordered)
          (.plain (LibraryImport.uses_ofCells target rest _))⟩
      exact subperm_of_appended 8 rfl rfl
  | resource =>
    cases values with
    | nil => exact ⟨[], fun _ => (List.sublist_append_left _ _).subperm, fun _ _ => Laid.nil span⟩
    | cons target rest =>
      refine ⟨[resourceImport ⟨.ofCell target, .parsed span⟩], fun table => ?_,
        fun hordered h => Laid.single (ResourceImport.nests_ofCell (hvalues h) hordered)
          (.plain rfl)⟩
      exact subperm_of_appended 9 rfl rfl
  | variableFile =>
    cases values with
    | nil => exact ⟨[], fun _ => (List.sublist_append_left _ _).subperm, fun _ _ => Laid.nil span⟩
    | cons target rest =>
      refine ⟨[variableImport ⟨.ofCell target, rest.map Expression.ofCell, .parsed span⟩],
        fun table => ?_,
        fun hordered h => Laid.single (VariableImport.nests_ofCells (hvalues h) hordered)
          (.plain (VariableImport.uses_ofCells target rest _))⟩
      exact subperm_of_appended 10 rfl rfl
  | documentation =>
    exact ⟨_, fun table => subperm_of_replaced 0 rfl rfl,
      fun _ => (Documentation.laidFrom_ofCells name values).laid span⟩
  | suiteSetup =>
    exact ⟨_, fun table => subperm_of_replaced 1 rfl rfl,
      fun _ => (SuiteHook.laidFrom_ofCells name values).laid span⟩
  | suiteTeardown =>
    exact ⟨_, fun table => subperm_of_replaced 2 rfl rfl,
      fun _ => (SuiteHook.laidFrom_ofCells name values).laid span⟩
  | testSetup =>
    exact ⟨_, fun table => subperm_of_replaced 3 rfl rfl,
      fun _ => (SuiteHook.laidFrom_ofCells name values).laid span⟩
  | testTeardown =>
    exact ⟨_, fun table => subperm_of_replaced 4 rfl rfl,
      fun _ => (SuiteHook.laidFrom_ofCells name values).laid span⟩
  | testTimeout =>
    exact ⟨_, fun table => subperm_of_replaced 5 rfl rfl,
      fun _ => (Timeout.laidFrom_ofCells name values).laid span⟩
  | forceTags =>
    exact ⟨_, fun table => subperm_of_replaced 6 rfl rfl,
      fun _ => (Tags.laidFrom_ofCells name values).laid span⟩
  | defaultTags =>
    exact ⟨_, fun table => subperm_of_replaced 7 rfl rfl,
      fun _ => (Tags.laidFrom_ofCells name values).laid span⟩

theorem exists_added (statement : Statement) : ∃ added : List Node,
    (∀ table : SettingsTable, (settingsTable (table.addStatement statement)).children.Subperm
      ((settingsTable table).children ++ added)) ∧
    ∀ outer, statement.Placed outer → Laid statement.span added := by
  unfold addStatement
  cases hfilled : statement.filled with
  | nil => exact ⟨[], fun _ => (List.sublist_append_left _ _).subperm, fun _ _ => Laid.nil _⟩
  | cons name values =>
    dsimp only
    cases SuiteSetting.ofName? name.content with
    | none => exact ⟨[], fun _ => (List.sublist_append_left _ _).subperm, fun _ _ => Laid.nil _⟩
    | some setting =>
      obtain ⟨added, hsub, hlaid⟩ := exists_added_set name values statement.span setting
      exact ⟨added, hsub, fun outer h => hlaid h.ordered (hfilled ▸ h.filled)⟩

theorem laid_ofTable {source : Table} (hsound : source.Sound) :
    Laid source.span (settingsTable (.ofTable source)).children := by
  choose added hadded hlaid using exists_added
  have hfold (table : SettingsTable) (statements : List Statement) :
      (settingsTable (statements.foldl addStatement table)).children.Subperm
        ((settingsTable table).children ++ statements.flatMap added) := by
    induction statements generalizing table with
    | nil => simp [List.Subperm.refl]
    | cons statement statements ih =>
      have hnext := (hadded statement table).append (List.Subperm.refl (statements.flatMap added))
      rw [List.append_assoc] at hnext
      exact (ih (table.addStatement statement)).trans hnext
  have hplaced (statement : Statement) (h : statement ∈ Statement.ofRows .firstCell source.rows) :=
    Statement.placed_of_mem_ofRows hsound h
  have hall : Laid source.span ((Statement.ofRows .firstCell source.rows).flatMap added) :=
    Laid.flatMap (fun statement h => hlaid statement _ (hplaced statement h))
      (Statement.pairwise_ofRows hsound .firstCell) fun statement h => (hplaced statement h).within
  exact hall.subperm (hfold (.empty (.parsed source.span)) _)

end SettingsTable

theorem SettingsTable.subperm_merge (a b : SettingsTable) :
    (settingsTable (a.merge b)).children.Subperm
      ((settingsTable a).children ++ (settingsTable b).children) := by
  have hor {α : Type} (part : α → Node) (a? b? : Option α) :
      ((b?.or a?).toList.map part).Subperm (a?.toList.map part ++ b?.toList.map part) := by
    cases b? with
    | none => simp [List.Subperm.refl]
    | some b => exact (List.sublist_append_right _ [part b]).subperm
  apply subperm_of_merge
  simp [fields, merge, hor, List.Subperm.refl]

theorem VariablesTable.subperm_merge (a b : VariablesTable) :
    (variablesTable (a.merge b)).children.Subperm
      ((variablesTable a).children ++ (variablesTable b).children) := by
  apply subperm_of_merge
  simp [fields, merge, List.Subperm.refl]

theorem KeywordsTable.subperm_merge (a b : KeywordsTable) :
    (keywordsTable (a.merge b)).children.Subperm
      ((keywordsTable a).children ++ (keywordsTable b).children) := by
  apply subperm_of_merge
  simp [fields, merge, List.Subperm.refl]

theorem TestCasesTable.subperm_merge (a b : TestCasesTable) :
    (testCasesTable (a.merge b)).children.Subperm
      ((testCasesTable a).children ++ (testCasesTable b).children) := by
  apply subperm_of_merge
  simp [fields, merge, List.Subperm.refl]

theorem subperm_mergeWith {α : Type} {part : α → Node} {merge : α → α → α}
    (h : ∀ a b, (part (merge a b)).children.Subperm ((part a).children ++ (part b).children))
    (a? : Option α) (b : α) :
    (part (mergeWith merge a? b)).children.Subperm
      ((a?.toList.map part).flatMap children ++ (part b).children) := by
  cases a? with
  | none => simp [mergeWith, List.Subperm.refl]
  | some a => simpa [mergeWith] using h a b

namespace Suite

theorem exists_added (moduleName : Text) (table : Table) : ∃ added : List Node,
    (∀ suite, ∃ changed, addTable moduleName suite table = .ok changed ∧
      changed.entries.Subperm (suite.entries ++ added)) ∧
    (table.Sound → Laid table.span added) := by
  unfold addTable
  cases Table.Kind.ofName? table.name with
  | none => exact ⟨[], fun suite => ⟨suite, rfl, by simp [List.Subperm.refl]⟩, fun _ => Laid.nil _⟩
  | some kind =>
    cases kind with
    | settings =>
      refine ⟨_, fun suite => ⟨_, rfl, ?_⟩, SettingsTable.laid_ofTable⟩
      exact subperm_entries 0 rfl rfl (subperm_mergeWith SettingsTable.subperm_merge _ _)
    | declarations =>
      refine ⟨_, fun suite => ⟨_, rfl, ?_⟩, VariablesTable.laid_ofTable⟩
      exact subperm_entries 1 rfl rfl (subperm_mergeWith VariablesTable.subperm_merge _ _)
    | keywords =>
      obtain ⟨read, hread, -⟩ := KeywordsTable.ofTable_ok moduleName table
      refine ⟨_, fun suite => ⟨_, by rw [hread]; rfl, ?_⟩,
        fun hsound => KeywordsTable.laid_ofTable hsound hread⟩
      exact subperm_entries 2 rfl rfl (subperm_mergeWith KeywordsTable.subperm_merge _ _)
    | testCases =>
      obtain ⟨read, hread, -⟩ := TestCasesTable.ofTable_ok table
      refine ⟨_, fun suite => ⟨_, by rw [hread]; rfl, ?_⟩,
        fun hsound => TestCasesTable.laid_ofTable hsound hread⟩
      exact subperm_entries 3 rfl rfl (subperm_mergeWith TestCasesTable.subperm_merge _ _)

theorem laid_entries_read {moduleName text : Text} {suite : Suite}
    (h : Suite.read moduleName text = .ok suite) :
    Laid (spanOf (Table.read text)) suite.entries := by
  choose added hadded hlaid using exists_added moduleName
  have hfold (before changed : Suite) (tables : List Table)
      (h : tables.foldlM (addTable moduleName) before = .ok changed) :
      changed.entries.Subperm (before.entries ++ tables.flatMap added) := by
    induction tables generalizing before with
    | nil =>
      cases h
      simp [List.Subperm.refl]
    | cons table tables ih =>
      obtain ⟨next, hnext, hsub⟩ := hadded table before
      rw [List.foldlM_cons, hnext] at h
      have hall := hsub.append (List.Subperm.refl (tables.flatMap added))
      rw [List.append_assoc] at hall
      exact (ih next h).trans hall
  have htables : Laid (spanOf (Table.read text)) ((Table.read text).flatMap added) :=
    Laid.flatMap (fun table htable => hlaid table (Table.sound_of_mem_read htable))
      (Table.pairwise_read text) fun table => le_spanOf
  exact htables.subperm (hfold _ suite _ h)

end Suite

end SuiteIndex
