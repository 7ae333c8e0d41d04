import SuiteIndex.Proofs.Suite.Body
import SuiteIndex.Suite.Reading

/-! # Suites enclose their parts

In the suite of a tabular text every location is a span, and the span of every node
encloses those of its children. A cursor that is outside a node is therefore outside
everything below it.
-/

namespace SuiteIndex
open Node

section

variable {outer : Span}

theorem KeywordsTable.ofTable_ok (moduleName : Text) (table : Table) :
    ∃ read, KeywordsTable.ofTable moduleName table = .ok read ∧
      (table.Sound → Nests table.span (keywordsTable read)) := by
  obtain ⟨keywords, hkeywords, hnests⟩ := Function.ofTable_ok (F := UserKeyword)
    (fun cell => .declared moduleName (.plain cell)) table
  refine ⟨⟨keywords, .parsed table.span⟩, ?_, fun hsound => ?_⟩
  · rw [KeywordsTable.ofTable, hkeywords]
    rfl
  · apply Nests.intro rfl hsound.span_ordered le_rfl
    intro child hchild
    obtain ⟨keyword, hkeyword, rfl⟩ : ∃ keyword ∈ keywords, userKeyword keyword = child := by
      simpa [children_eq, fields] using hchild
    refine hnests hsound (fun cell => ?_) keyword hkeyword
    unfold Identifier.declared
    split <;> rfl

theorem TestCasesTable.ofTable_ok (table : Table) :
    ∃ read, TestCasesTable.ofTable table = .ok read ∧
      (table.Sound → Nests table.span (testCasesTable read)) := by
  obtain ⟨testCases, htestCases, hnests⟩ := Function.ofTable_ok (F := TestCase) .plain table
  refine ⟨⟨testCases, .parsed table.span⟩, ?_, fun hsound => ?_⟩
  · rw [TestCasesTable.ofTable, htestCases]
    rfl
  · apply Nests.intro rfl hsound.span_ordered le_rfl
    intro child hchild
    obtain ⟨test, htest, rfl⟩ : ∃ test ∈ testCases, testCase test = child := by
      simpa [children_eq, fields] using hchild
    exact hnests hsound (fun _ => rfl) test htest

theorem VariablesTable.nests_of_mem_values? {cells : List Cell} (h : Cell.Inside outer cells)
    {kind : VariableKind} {values : List Expression} (hvalues : values? cells kind = some values)
    {value : Expression} (hvalue : value ∈ values) : Nests outer (ofExpression value) := by
  cases kind with
  | scalar =>
    obtain rfl := Option.some.inj hvalues
    obtain ⟨cell, hcell, rfl⟩ := Option.map_eq_some_iff.1 (Option.mem_toList.1 hvalue)
    exact h.value (List.mem_of_mem_head? hcell)
  | list =>
    obtain rfl := Option.some.inj hvalues
    obtain ⟨cell, hcell, rfl⟩ := List.mem_map.1 hvalue
    exact h.value hcell
  | dictionary =>
    obtain rfl := Option.some.inj hvalues
    obtain ⟨cell, hcell, rfl⟩ := List.mem_map.1 hvalue
    exact h.literal hcell
  | environment => cases hvalues

theorem VariablesTable.nests_declaration? {statement : Statement} (h : statement.Placed outer)
    {declaration : Declaration} (hread : declaration? statement = some declaration) :
    Nests outer (variableDeclaration declaration) := by
  have hfilled := h.filled
  unfold declaration? at hread
  split at hread
  · cases hread
  simp only [Option.bind_eq_bind, Option.bind_eq_some_iff] at hread
  obtain ⟨name, hname, target, htarget, values, hvalues, hread⟩ := hread
  obtain rfl := Option.some.inj hread
  have hmem := List.mem_of_mem_head? hname
  have hid := (Target.nested_ofCell? (hfilled.fits name hmem) htarget).id
  apply Nests.intro rfl h.ordered h.within
  intro child hchild
  obtain rfl | ⟨value, hvalue, rfl⟩ : child = identifier target.id ∨
      ∃ value ∈ values, ofExpression value = child := by
    simpa [children_eq, fields] using hchild
  · exact hid.mono (hfilled.within name hmem)
  · exact nests_of_mem_values? (hfilled.sublist (List.drop_sublist 1 _)) hvalues hvalue

theorem VariablesTable.nests_ofTable {table : Table} (h : table.Sound) :
    Nests table.span (variablesTable (.ofTable table)) := by
  apply Nests.intro rfl h.span_ordered le_rfl
  intro child hchild
  obtain ⟨declaration, hdeclaration, rfl⟩ :
      ∃ declaration ∈ (VariablesTable.ofTable table).declarations,
        variableDeclaration declaration = child := by
    simpa [children_eq, fields] using hchild
  obtain ⟨statement, hstatement, hread⟩ := List.mem_filterMap.1 hdeclaration
  exact nests_declaration? (Statement.placed_of_mem_ofRows h hstatement) hread

end

section

variable {outer : Span}

theorem SettingsTable.nests_merge {a b : SettingsTable} (ha : Nests outer (settingsTable a))
    (hb : Nests outer (settingsTable b)) : Nests outer (settingsTable (a.merge b)) := by
  apply ha.merge hb rfl
  simp +contextual [fields, merge, or_imp]

theorem VariablesTable.nests_merge {a b : VariablesTable} (ha : Nests outer (variablesTable a))
    (hb : Nests outer (variablesTable b)) : Nests outer (variablesTable (a.merge b)) := by
  apply ha.merge hb rfl
  simp [fields, merge]

theorem KeywordsTable.nests_merge {a b : KeywordsTable} (ha : Nests outer (keywordsTable a))
    (hb : Nests outer (keywordsTable b)) : Nests outer (keywordsTable (a.merge b)) := by
  apply ha.merge hb rfl
  simp [fields, merge]

theorem TestCasesTable.nests_merge {a b : TestCasesTable} (ha : Nests outer (testCasesTable a))
    (hb : Nests outer (testCasesTable b)) : Nests outer (testCasesTable (a.merge b)) := by
  apply ha.merge hb rfl
  simp [fields, merge]

end

namespace Suite

/-- A suite keeps nesting when the table of one kind becomes its merge with a new one. -/
theorem nests_of_mergeWith {α : Type} {node : α → Node} {merge : α → α → α} (a? : Option α) {b : α}
    {outer span : Span} {suite changed : Suite} (h : Nests outer (testSuite suite))
    (hspan : suite.location = .parsed span) (hlocation : changed.location = suite.location)
    (hmerge : ∀ {a b}, Nests span (node a) → Nests span (node b) → Nests span (node (merge a b)))
    (hold : ∀ a ∈ a?, node a ∈ (testSuite suite).children) (hnew : Nests span (node b))
    (hslots : List.Forall₂ (fun before after => ∀ child ∈ after.2,
      child ∈ before.2 ∨ child = node (mergeWith merge a? b))
      (testSuite suite).fields (testSuite changed).fields) :
    Nests outer (testSuite changed) := by
  have hmerged : Nests span (node (mergeWith merge a? b)) := by
    cases a? with
    | none => exact hnew
    | some a => exact hmerge (h.child hspan (hold a rfl)) hnew
  refine h.insert hspan hlocation fun child hchild => ?_
  rcases mem_children_of_fields hslots hchild with hchild | rfl
  · exact .inl hchild
  · exact .inr hmerged

theorem addTable_ok (moduleName : Text) (suite : Suite) (table : Table) :
    ∃ changed, addTable moduleName suite table = .ok changed ∧
      changed.location = suite.location ∧
      ∀ outer span, suite.location = .parsed span → table.Sound → table.span ≤ span →
        Nests outer (testSuite suite) → Nests outer (testSuite changed) := by
  unfold addTable
  split
  · exact ⟨suite, rfl, rfl, fun _ _ _ _ _ h => h⟩
  · refine ⟨_, rfl, rfl, fun outer span hspan hsound hle h => ?_⟩
    have hnew := (SettingsTable.nests_ofTable hsound).mono hle
    refine nests_of_mergeWith suite.settings? h hspan rfl SettingsTable.nests_merge ?_ hnew ?_
    · simp +contextual [children_eq, fields]
    · simp +contextual [fields]
  · refine ⟨_, rfl, rfl, fun outer span hspan hsound hle h => ?_⟩
    have hnew := (VariablesTable.nests_ofTable hsound).mono hle
    refine nests_of_mergeWith suite.variables? h hspan rfl VariablesTable.nests_merge ?_ hnew ?_
    · simp +contextual [children_eq, fields]
    · simp +contextual [fields]
  · obtain ⟨read, hread, hnests⟩ := KeywordsTable.ofTable_ok moduleName table
    rw [hread]
    refine ⟨_, rfl, rfl, fun outer span hspan hsound hle h => ?_⟩
    have hnew := (hnests hsound).mono hle
    refine nests_of_mergeWith suite.keywords? h hspan rfl KeywordsTable.nests_merge ?_ hnew ?_
    · simp +contextual [children_eq, fields]
    · simp +contextual [fields]
  · obtain ⟨read, hread, hnests⟩ := TestCasesTable.ofTable_ok table
    rw [hread]
    refine ⟨_, rfl, rfl, fun outer span hspan hsound hle h => ?_⟩
    have hnew := (hnests hsound).mono hle
    refine nests_of_mergeWith suite.testCases? h hspan rfl TestCasesTable.nests_merge ?_ hnew ?_
    · simp +contextual [children_eq, fields]
    · simp +contextual [fields]

theorem foldlM_ok (moduleName : Text) (suite : Suite) (tables : List Table) :
    ∃ changed, tables.foldlM (addTable moduleName) suite = .ok changed ∧
      ∀ outer span, suite.location = .parsed span →
        (∀ table ∈ tables, table.Sound ∧ table.span ≤ span) →
        Nests outer (testSuite suite) → Nests outer (testSuite changed) := by
  induction tables generalizing suite with
  | nil => exact ⟨suite, rfl, fun _ _ _ _ h => h⟩
  | cons table tables ih =>
    obtain ⟨next, hnext, hlocation, hstep⟩ := addTable_ok moduleName suite table
    obtain ⟨changed, hchanged, hrest⟩ := ih next
    refine ⟨changed, ?_, fun outer span hspan htables h => ?_⟩
    · rw [List.foldlM_cons, hnext]
      exact hchanged
    · rw [List.forall_mem_cons] at htables
      obtain ⟨⟨hsound, hle⟩, htables⟩ := htables
      exact hrest outer span (hlocation.trans hspan) htables (hstep outer span hspan hsound hle h)

theorem le_foldl_cover (span : Span) (tables : List Table) :
    let total := tables.foldl (fun span table => span.cover table.span) span
    span ≤ total ∧ ∀ table ∈ tables, table.span ≤ total := by
  induction tables generalizing span with
  | nil => exact ⟨le_rfl, by simp⟩
  | cons table tables ih =>
    obtain ⟨hspan, htables⟩ := ih (span.cover table.span)
    refine ⟨(Span.le_cover_left span table.span).trans hspan, List.forall_mem_cons.2 ⟨?_, htables⟩⟩
    exact (Span.le_cover_right span table.span).trans hspan

theorem le_spanOf {tables : List Table} {table : Table} (h : table ∈ tables) :
    table.span ≤ spanOf tables := by
  cases tables with
  | nil => cases h
  | cons first rest =>
    obtain ⟨hfirst, hrest⟩ := le_foldl_cover first.span rest
    rcases List.mem_cons.1 h with rfl | h
    · exact hfirst
    · exact hrest table h

theorem spanOf_ordered {tables : List Table} (h : ∀ table ∈ tables, table.Sound) :
    (spanOf tables).start ≤ (spanOf tables).stop := by
  cases tables with
  | nil => exact le_rfl
  | cons first rest =>
    have hfirst := (h first List.mem_cons_self).span_ordered
    exact Span.start_le_stop_of_le (le_spanOf List.mem_cons_self) hfirst

theorem exists_nests_read (moduleName text : Text) :
    ∃ suite outer, Suite.read moduleName text = .ok suite ∧ Nests outer (testSuite suite) := by
  have hsound : ∀ table ∈ Table.read text, table.Sound := fun _ => Table.sound_of_mem_read
  obtain ⟨suite, hsuite, hnests⟩ := foldlM_ok moduleName
    (.empty (.parsed (spanOf (Table.read text)))) (Table.read text)
  have hempty : Nests (spanOf (Table.read text))
      (testSuite (.empty (.parsed (spanOf (Table.read text))))) :=
    .intro rfl (spanOf_ordered hsound) le_rfl (by simp [children_eq, fields, empty])
  have hroot := hnests _ _ rfl (fun table h => ⟨hsound table h, le_spanOf h⟩) hempty
  exact ⟨suite, _, hsuite, hroot⟩

/-- The suite of a text has a span at every node, ordered and around the spans of the
children. -/
theorem read_encloses_children (moduleName text : Text) :
    ∃ suite, Suite.read moduleName text = .ok suite ∧
      ∀ node, Reaches (.testSuite suite) node →
        ∃ span, node.location = .parsed span ∧ span.start.notAfter span.stop = true ∧
          ∀ child ∈ node.children, node.location.encloses? child.location = some true := by
  obtain ⟨suite, outer, hsuite, hroot⟩ := exists_nests_read moduleName text
  refine ⟨suite, hsuite, fun node hnode => ?_⟩
  obtain ⟨span, hspan⟩ := hroot.of_reaches hnode
  exact hspan.encloses

end Suite

end SuiteIndex
