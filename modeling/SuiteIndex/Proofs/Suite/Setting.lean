import SuiteIndex.Proofs.Suite.Call

/-! # Locations of settings

A setting reaches from its name to its last value. The settings table takes in settings
whose cells stand inside its statements.
-/

namespace SuiteIndex
open Node

theorem Cell.Inside.setting {outer : Span} {name : Cell} {values : List Cell} {node : Node}
    (h : Inside outer (name :: values)) (hlocation : node.location = reach name values)
    (others : List Node) (hchildren : node.children = identifier (.plain name) :: others)
    (hothers : ∀ span, Inside span (name :: values) → ∀ child ∈ others, Nests span child) :
    Nests outer node := by
  apply h.node hlocation
  intro span hspan child hchild
  rw [hchildren] at hchild
  rcases List.mem_cons.1 hchild with rfl | hchild
  · exact hspan.plain List.mem_cons_self
  · exact hothers span hspan child hchild

section

variable {name : Cell} {values : List Cell}

/-- The text of a documentation reaches over its values; without values it is a point
behind the name. -/
@[simp] theorem Documentation.readFrom_ofCells :
    ReadFrom (name :: values) (documentation (.ofCells name values)) := by
  intro outer h
  apply h.setting rfl [literal (Documentation.ofCells name values).value] rfl
  intro span hspan child hchild
  obtain rfl := List.mem_singleton.1 hchild
  have hname := hspan.within name List.mem_cons_self
  have hordered := (hspan.fits name List.mem_cons_self).ordered
  cases values with
  | nil => exact .intro rfl le_rfl ⟨hname.1.trans hordered, hname.2⟩ (by simp)
  | cons first rest =>
    have hvalues := hspan.sublist (List.sublist_cons_self name (first :: rest))
    obtain ⟨hrange, hwithin, -⟩ := hvalues.range (Cell.range?_cons first rest)
    have hlocation : (Documentation.ofCells name (first :: rest)).value.location =
        .parsed ⟨first.span.start, (rest.getLast?.getD first).span.stop⟩ := by
      simp [ofCells, Cell.range?_cons]
    exact .intro hlocation hrange hwithin (by simp)

@[simp] theorem Arguments.readFrom_ofCells :
    ReadFrom (name :: values) (arguments (.ofCells name values)) := by
  intro outer h
  apply h.setting rfl ((Arguments.ofCells name values).values.map variableDeclaration)
  · simp [children_eq, fields, ofCells]
  · intro span hspan child hchild
    obtain ⟨declaration, hdeclaration, rfl⟩ := List.mem_map.1 hchild
    obtain ⟨cell, hcell, hread⟩ := List.mem_filterMap.1 hdeclaration
    obtain ⟨target, htarget, rfl⟩ := Option.map_eq_some_iff.1 hread
    have hmem := List.mem_cons_of_mem name hcell
    have hfits := hspan.fits cell hmem
    exact Target.nests_toDeclaration hfits (hspan.within cell hmem)
      (Target.nested_ofCell? hfits htarget)

@[simp] theorem Returned.readFrom_ofCells :
    ReadFrom (name :: values) (returned (.ofCells name values)) := by
  intro outer h
  apply h.setting rfl (values.map fun cell => ofExpression (.ofCell cell))
  · simp [children_eq, fields, ofCells]
  · intro span hspan child hchild
    obtain ⟨cell, hcell, rfl⟩ := List.mem_map.1 hchild
    exact hspan.value (List.mem_cons_of_mem name hcell)

@[simp] theorem Tags.readFrom_ofCells :
    ReadFrom (name :: values) (tags (.ofCells name values)) := by
  intro outer h
  apply h.setting rfl (values.map fun cell => literal (.ofCell cell))
  · simp [children_eq, fields, ofCells]
  · intro span hspan child hchild
    obtain ⟨cell, hcell, rfl⟩ := List.mem_map.1 hchild
    exact hspan.literal (List.mem_cons_of_mem name hcell)

@[simp] theorem Timeout.readFrom_ofCells :
    ReadFrom (name :: values) (timeout (.ofCells name values)) := by
  intro outer h
  apply h.setting rfl
    ((values[0]?.toList ++ values[1]?.toList).map fun cell => literal (.ofCell cell))
  · simp [children_eq, fields, ofCells, Option.toList_map, Function.comp_def]
  · intro span hspan child hchild
    obtain ⟨cell, hcell, rfl⟩ := List.mem_map.1 hchild
    have hmem : cell ∈ values := by
      rcases List.mem_append.1 hcell with hcell | hcell
      · exact List.mem_of_getElem? (Option.mem_toList.1 hcell)
      · exact List.mem_of_getElem? (Option.mem_toList.1 hcell)
    exact hspan.literal (List.mem_cons_of_mem name hmem)

@[simp] theorem TemplateSetting.readFrom_ofCells :
    ReadFrom (name :: values) (template (.ofCells name values)) := by
  intro outer h
  apply h.setting rfl (values.head?.toList.map fun cell => identifier (.ofCell cell))
  · simp [children_eq, fields, ofCells, Option.toList_map]
  · intro span hspan child hchild
    obtain ⟨cell, hcell, rfl⟩ := List.mem_map.1 hchild
    have hmem := List.mem_of_mem_head? (Option.mem_toList.1 hcell)
    exact hspan.name (List.mem_cons_of_mem name hmem)

theorem Cell.Inside.hook {outer : Span} {node : Node} (h : Inside outer (name :: values))
    (hlocation : node.location = reach name values)
    (hchildren : node.children =
      identifier (.plain name) :: (Call.ofCells? values).toList.map callExpression) :
    Nests outer node := by
  apply h.setting hlocation _ hchildren
  intro span hspan child hchild
  obtain ⟨call, hcall, rfl⟩ := List.mem_map.1 hchild
  have hvalues := hspan.sublist (List.sublist_cons_self name values)
  exact Call.nests_ofCells? hvalues call (Option.mem_toList.1 hcall)

@[simp] theorem Hook.readFrom_setup :
    ReadFrom (name :: values) (setup (.ofCells name values)) :=
  fun _ h => h.hook rfl (by simp [children_eq, fields, ofCells])

@[simp] theorem Hook.readFrom_teardown :
    ReadFrom (name :: values) (teardown (.ofCells name values)) :=
  fun _ h => h.hook rfl (by simp [children_eq, fields, ofCells])

@[simp] theorem SuiteHook.readFrom_ofCells :
    ReadFrom (name :: values) (suiteSetting (.ofCells name values)) :=
  fun _ h => h.hook rfl (by simp [children_eq, fields, ofCells])

end

section

variable {span : Span} {target : Cell} {rest : List Cell}

theorem Cell.Inside.statement {cells : List Cell} {node : Node} (h : Inside span cells)
    (hordered : span.start ≤ span.stop) (hlocation : node.location = .parsed span)
    (hchildren : ∀ child ∈ node.children, ∃ cell ∈ cells,
      child = ofExpression (.ofCell cell) ∨ child = Node.literal (.ofCell cell)) :
    Nests span node := by
  apply Nests.intro hlocation hordered le_rfl
  intro child hchild
  obtain ⟨cell, hcell, rfl | rfl⟩ := hchildren child hchild
  · exact h.value hcell
  · exact h.literal hcell

theorem LibraryImport.nests_ofCells (h : Cell.Inside span (target :: rest))
    (hordered : span.start ≤ span.stop) :
    Nests span (libraryImport (.ofCells target rest (.parsed span))) := by
  apply h.statement hordered rfl
  intro child hchild
  have hargs := List.takeWhile_sublist (l := rest) (!LibraryImport.marksAlias ·)
  have halias := List.dropWhile_sublist (l := rest) (!LibraryImport.marksAlias ·)
  obtain rfl | ⟨cell, hcell, rfl⟩ | ⟨cell, hcell, rfl⟩ : child = literal (.ofCell target) ∨
      (∃ cell ∈ rest.takeWhile (!marksAlias ·), ofExpression (.ofCell cell) = child) ∨
        ∃ cell, (rest.dropWhile (!marksAlias ·))[1]? = some cell ∧
          literal (.ofCell cell) = child := by
    simpa [children_eq, fields, ofCells] using hchild
  · exact ⟨target, List.mem_cons_self, .inr rfl⟩
  · exact ⟨cell, List.mem_cons_of_mem target (hargs.subset hcell), .inl rfl⟩
  · exact ⟨cell, List.mem_cons_of_mem target (halias.subset (List.mem_of_getElem? hcell)), .inr rfl⟩

theorem ResourceImport.nests_ofCell (h : Cell.Inside span (target :: rest))
    (hordered : span.start ≤ span.stop) :
    Nests span (resourceImport ⟨.ofCell target, .parsed span⟩) := by
  apply h.statement hordered rfl
  intro child hchild
  exact ⟨target, List.mem_cons_self, .inr (List.mem_singleton.1 hchild)⟩

theorem VariableImport.nests_ofCells (h : Cell.Inside span (target :: rest))
    (hordered : span.start ≤ span.stop) :
    Nests span
      (variableImport ⟨.ofCell target, rest.map Expression.ofCell, .parsed span⟩) := by
  apply h.statement hordered rfl
  intro child hchild
  obtain rfl | ⟨cell, hcell, rfl⟩ : child = literal (.ofCell target) ∨
      ∃ cell ∈ rest, ofExpression (.ofCell cell) = child := by
    simpa [children_eq, fields] using hchild
  · exact ⟨target, List.mem_cons_self, .inr rfl⟩
  · exact ⟨cell, List.mem_cons_of_mem target hcell, .inl rfl⟩

end

namespace SettingsTable

variable {table : SettingsTable} {span : Span} {name : Cell} {values : List Cell}

theorem location_set (setting : SuiteSetting) (location : Location) :
    (table.set name values location setting).location = table.location := by
  cases setting <;> cases values <;> rfl

theorem mem_children_set (h : Cell.Inside span (name :: values))
    (hordered : span.start ≤ span.stop) (setting : SuiteSetting) {child : Node}
    (hchild : child ∈ (settingsTable (table.set name values (.parsed span) setting)).children) :
    child ∈ (settingsTable table).children ∨ Nests span child := by
  have hvalues := h.sublist (List.sublist_cons_self name values)
  cases setting with
  | library =>
    cases values with
    | nil => exact .inl hchild
    | cons target rest =>
      have hnew := LibraryImport.nests_ofCells hvalues hordered
      exact mem_children_of_fields (by simp +contextual [fields, set, or_imp, hnew]) hchild
  | resource =>
    cases values with
    | nil => exact .inl hchild
    | cons target rest =>
      have hnew := ResourceImport.nests_ofCell hvalues hordered
      exact mem_children_of_fields (by simp +contextual [fields, set, or_imp, hnew]) hchild
  | variableFile =>
    cases values with
    | nil => exact .inl hchild
    | cons target rest =>
      have hnew := VariableImport.nests_ofCells hvalues hordered
      exact mem_children_of_fields (by simp +contextual [fields, set, or_imp, hnew]) hchild
  | documentation =>
    have hnew := Documentation.readFrom_ofCells span h
    exact mem_children_of_fields (by simp +contextual [fields, set, hnew]) hchild
  | testTimeout =>
    have hnew := Timeout.readFrom_ofCells span h
    exact mem_children_of_fields (by simp +contextual [fields, set, hnew]) hchild
  | forceTags | defaultTags =>
    have hnew := Tags.readFrom_ofCells span h
    exact mem_children_of_fields (by simp +contextual [fields, set, hnew]) hchild
  | suiteSetup | suiteTeardown | testSetup | testTeardown =>
    have hnew := SuiteHook.readFrom_ofCells span h
    exact mem_children_of_fields (by simp +contextual [fields, set, hnew]) hchild

theorem location_addStatement (statement : Statement) :
    (table.addStatement statement).location = table.location := by
  unfold addStatement
  split
  · split
    · exact location_set _ _
    · rfl
  · rfl

theorem nests_addStatement {outer : Span} {statement : Statement}
    (h : Nests outer (settingsTable table)) (hspan : table.location = .parsed span)
    (hstatement : statement.Placed span) :
    Nests outer (settingsTable (table.addStatement statement)) := by
  refine h.insert hspan (location_addStatement statement) fun child hchild => ?_
  have hfilled := hstatement.filled
  unfold addStatement at hchild
  split at hchild
  · rename_i name values hcells
    rw [hcells] at hfilled
    split at hchild
    · refine (mem_children_set hfilled hstatement.ordered _ hchild).imp id fun hnests => ?_
      exact hnests.mono hstatement.within
    · exact .inl hchild
  · exact .inl hchild

theorem nests_foldl {outer : Span} {statements : List Statement}
    (h : Nests outer (settingsTable table)) (hspan : table.location = .parsed span)
    (hstatements : ∀ statement ∈ statements, statement.Placed span) :
    Nests outer (settingsTable (statements.foldl addStatement table)) := by
  induction statements generalizing table with
  | nil => exact h
  | cons statement statements ih =>
    rw [List.forall_mem_cons] at hstatements
    apply ih
    · exact nests_addStatement h hspan hstatements.1
    · rw [location_addStatement, hspan]
    · exact hstatements.2

theorem nests_ofTable {source : Table} (h : source.Sound) :
    Nests source.span (settingsTable (.ofTable source)) := by
  refine nests_foldl ?_ rfl ?_
  · exact .intro rfl h.span_ordered le_rfl (by simp [children_eq, fields, empty])
  · exact fun statement hstatement => Statement.placed_of_mem_ofRows h hstatement

end SettingsTable

end SuiteIndex
