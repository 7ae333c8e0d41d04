import SuiteIndex.Proofs.Position.Cover
import SuiteIndex.Proofs.Suite.Enclosure
import SuiteIndex.Proofs.Table.Grouping

/-! # Repeated tables

Two tables of one kind are read like a single table that holds the rows of both, provided
that the rows of the second do not continue a statement of the first. Three facts give this:
reading a table is a homomorphism from rows to merged tables, merging is associative, and
tables of different kinds are put into a suite in any order. Only the places of the merged
table and of the suite tell how often the table was opened.
-/

namespace SuiteIndex

namespace Row

/-- The row begins with a cell that is neither empty nor a marker. -/
def opens (row : Row) : Bool :=
  match row.cells with
  | cell :: _ => !cell.isEmpty && !cell.isMarker
  | [] => false

/-- Rows that begin a statement of their own, if they are not all empty. -/
def StartAnew (rows : List Row) : Prop :=
  ∀ row ∈ rows.find? (!·.isEmpty), row.opens = true

instance (rows : List Row) : Decidable (StartAnew rows) :=
  inferInstanceAs (Decidable (∀ row ∈ rows.find? _, _))

theorem firstFilled_of_opens {row : Row} (h : row.opens = true) :
    ∃ cell others, row.FirstFilled [] cell others ∧ cell.content ≠ "...".toList := by
  unfold opens at h
  split at h
  · rename_i cell others hcells
    simp only [Bool.and_eq_true, Bool.not_eq_true'] at h
    refine ⟨cell, others, ⟨hcells, by simp, ?_⟩, of_decide_eq_false h.2⟩
    simpa [Cell.isEmpty] using h.1
  · cases h

theorem opensStatement_of_opens {row : Row} (h : row.opens = true) : row.OpensStatement :=
  ⟨[], firstFilled_of_opens h⟩

theorem StartAnew.of_cons {row : Row} {rest : List Row} (h : StartAnew (row :: rest)) :
    row.isEmpty = true ∧ StartAnew rest ∨ row.opens = true := by
  cases hrow : row.isEmpty with
  | true => exact .inl ⟨rfl, by simpa [StartAnew, hrow] using h⟩
  | false => exact .inr (h row (by simp [hrow]))

end Row

namespace Statement

variable {style : Continuation} {back : List Row}

theorem fold_of_startAnew (h : Row.StartAnew back) (current : Option Statement) :
    fold style current back = current.toList ++ ofRows style back := by
  induction back with
  | nil => simp [ofRows, fold]
  | cons row rest ih =>
    rcases h.of_cons with ⟨hrow, hrest⟩ | hopens
    · simp only [ofRows, fold, hrow, if_true]
      exact ih hrest
    · simp [ofRows, fold_of_opensStatement (Row.opensStatement_of_opens hopens)]

theorem fold_append (h : Row.StartAnew back) (current : Option Statement) (front : List Row) :
    fold style current (front ++ back) = fold style current front ++ ofRows style back := by
  induction front generalizing current with
  | nil => exact fold_of_startAnew h current
  | cons row rest ih =>
    simp only [List.cons_append, fold, ih]
    split
    · rfl
    · split
      · rfl
      · split
        · rfl
        · rw [List.append_assoc]

/-- Rows that start anew keep their statements apart from those of the rows above them. -/
theorem ofRows_append (h : Row.StartAnew back) (front : List Row) :
    ofRows style (front ++ back) = ofRows style front ++ ofRows style back :=
  fold_append h none front

theorem startsFilled_extend {statement : Statement} (h : statement.startsFilled = true)
    (row : Row) : (statement.extend row).startsFilled = true := by
  obtain ⟨cells, span⟩ := statement
  cases cells with
  | nil => cases h
  | cons cell cells => exact h

theorem head?_fold {statement : Statement} (h : statement.startsFilled = true)
    (rows : List Row) : ∀ first ∈ (fold style (some statement) rows).head?,
      first.startsFilled = true := by
  induction rows generalizing statement with
  | nil =>
    rintro _ ⟨⟩
    exact h
  | cons row rest ih =>
    unfold fold
    split
    · exact ih h
    · split
      · exact ih (startsFilled_extend h row)
      · split
        · exact ih h
        · rintro _ ⟨⟩
          exact h

theorem head?_ofRows (h : Row.StartAnew back) :
    ∀ first ∈ (ofRows style back).head?, first.startsFilled = true := by
  induction back with
  | nil => rintro _ ⟨⟩
  | cons row rest ih =>
    rcases h.of_cons with ⟨hrow, hrest⟩ | hopens
    · simpa only [ofRows, fold, hrow, if_true] using ih hrest
    · obtain ⟨cell, others, hfirst, hcell⟩ := Row.firstFilled_of_opens hopens
      have hcells : row.cells = cell :: others := hfirst.cells
      rw [ofRows, fold_of_opensStatement ⟨[], cell, others, hfirst, hcell⟩]
      exact head?_fold (by simp [startsFilled, ofRow, hcells, hfirst.isEmpty_cell]) rest

end Statement

instance : Std.Associative SettingsTable.merge :=
  ⟨fun a b c => by simp [SettingsTable.merge, Option.or_assoc, Location.cover_assoc]⟩

instance : Std.Associative VariablesTable.merge :=
  ⟨fun a b c => by simp [VariablesTable.merge, Location.cover_assoc]⟩

instance : Std.Associative KeywordsTable.merge :=
  ⟨fun a b c => by simp [KeywordsTable.merge, Location.cover_assoc]⟩

instance : Std.Associative TestCasesTable.merge :=
  ⟨fun a b c => by simp [TestCasesTable.merge, Location.cover_assoc]⟩

theorem mergeWith_merge {α : Type} {merge : α → α → α} [Std.Associative merge]
    (earlier? : Option α) (a b : α) :
    mergeWith merge earlier? (merge a b) =
      mergeWith merge (some (mergeWith merge earlier? a)) b := by
  cases earlier? with
  | none => rfl
  | some earlier => exact (Std.Associative.assoc earlier a b).symm

def SettingsTable.unplaced (table : SettingsTable) : SettingsTable :=
  { table with location := .synthetic }

def VariablesTable.unplaced (table : VariablesTable) : VariablesTable :=
  { table with location := .synthetic }

def KeywordsTable.unplaced (table : KeywordsTable) : KeywordsTable :=
  { table with location := .synthetic }

def TestCasesTable.unplaced (table : TestCasesTable) : TestCasesTable :=
  { table with location := .synthetic }

theorem SettingsTable.merge_unplaced (a b : SettingsTable) :
    a.unplaced.merge b.unplaced = (a.merge b).unplaced := rfl

theorem VariablesTable.merge_unplaced (a b : VariablesTable) :
    a.unplaced.merge b.unplaced = (a.merge b).unplaced := rfl

theorem KeywordsTable.merge_unplaced (a b : KeywordsTable) :
    a.unplaced.merge b.unplaced = (a.merge b).unplaced := rfl

theorem TestCasesTable.merge_unplaced (a b : TestCasesTable) :
    a.unplaced.merge b.unplaced = (a.merge b).unplaced := rfl

/-- The suite without the places of itself and of its table of this kind. -/
def Suite.unplaced (suite : Suite) : Table.Kind → Suite
  | .settings =>
    { suite with settings? := suite.settings?.map .unplaced, location := .synthetic }
  | .declarations =>
    { suite with variables? := suite.variables?.map .unplaced, location := .synthetic }
  | .keywords =>
    { suite with keywords? := suite.keywords?.map .unplaced, location := .synthetic }
  | .testCases =>
    { suite with testCases? := suite.testCases?.map .unplaced, location := .synthetic }

namespace SettingsTable

theorem merge_empty (table : SettingsTable) : table.merge (empty .synthetic) = table := by
  simp [merge, empty]

theorem unplaced_set (table : SettingsTable) (name : Cell) (values : List Cell)
    (location : Location) (setting : SuiteSetting) :
    (table.set name values location setting).unplaced =
      table.unplaced.set name values location setting := by
  cases setting <;> cases values <;> rfl

/-- A setting replaces one of the earlier tables too, and an import stands behind theirs. -/
theorem merge_set (a b : SettingsTable) (name : Cell) (values : List Cell)
    (location : Location) (setting : SuiteSetting) :
    a.merge (b.set name values location setting) =
      (a.merge b).set name values location setting := by
  cases setting <;> cases values <;> simp [set, merge]

theorem unplaced_addStatement (table : SettingsTable) (statement : Statement) :
    (table.addStatement statement).unplaced = table.unplaced.addStatement statement := by
  unfold addStatement
  split
  · split
    · exact unplaced_set table _ _ _ _
    · rfl
  · rfl

theorem merge_addStatement (a b : SettingsTable) (statement : Statement) :
    a.merge (b.addStatement statement) = (a.merge b).addStatement statement := by
  unfold addStatement
  split
  · split
    · exact merge_set a b _ _ _ _
    · rfl
  · rfl

theorem unplaced_foldl (table : SettingsTable) (statements : List Statement) :
    (statements.foldl addStatement table).unplaced =
      statements.foldl addStatement table.unplaced := by
  induction statements generalizing table with
  | nil => rfl
  | cons statement rest ih =>
    rw [List.foldl_cons, ih, unplaced_addStatement, List.foldl_cons]

theorem merge_foldl (a b : SettingsTable) (statements : List Statement) :
    a.merge (statements.foldl addStatement b) = statements.foldl addStatement (a.merge b) := by
  induction statements generalizing b with
  | nil => rfl
  | cons statement rest ih =>
    rw [List.foldl_cons, ih, merge_addStatement, List.foldl_cons]

theorem unplaced_ofTable (table : Table) : (ofTable table).unplaced =
    (Statement.ofRows .firstCell table.rows).foldl addStatement (empty .synthetic) :=
  unplaced_foldl _ _

end SettingsTable

section

variable {first second whole : Table}

theorem SettingsTable.unplaced_ofTable_append (hrows : whole.rows = first.rows ++ second.rows)
    (h : Row.StartAnew second.rows) :
    (ofTable whole).unplaced = ((ofTable first).merge (ofTable second)).unplaced := by
  rw [← merge_unplaced, unplaced_ofTable, unplaced_ofTable, unplaced_ofTable, merge_foldl,
    merge_empty, hrows, Statement.ofRows_append h, List.foldl_append]

theorem VariablesTable.unplaced_ofTable_append (hrows : whole.rows = first.rows ++ second.rows)
    (h : Row.StartAnew second.rows) :
    (ofTable whole).unplaced = ((ofTable first).merge (ofTable second)).unplaced := by
  simp [unplaced, merge, ofTable, hrows, Statement.ofRows_append h]

/-- Functions of later statements are read on their own if these begin with a name. -/
theorem Function.fold_append {F : Type} [Function F] {name : Cell → Identifier}
    {back : List Statement} (hback : ∀ first ∈ back.head?, first.startsFilled = true)
    (current : Option F) (front : List Statement) :
    fold name current (front ++ back) = (do
      let above ← fold name current front
      let below ← fold name none back
      return above ++ below) := by
  induction front generalizing current with
  | nil =>
    cases back with
    | nil => exact congrArg Except.ok (List.append_nil _).symm
    | cons first rest =>
      have habove : fold name current [] = pure current.toList := rfl
      rw [habove, pure_bind]
      simp only [List.nil_append, fold, hback first rfl, if_true, bind_assoc, pure_bind,
        Option.toList_none]
  | cons statement rest ih =>
    simp only [List.cons_append, fold, ih]
    split
    · simp only [bind_assoc, pure_bind, List.append_assoc]
    · simp only [bind_assoc]

theorem Function.ofTable_append {F : Type} [Function F] (name : Cell → Identifier)
    {above below : List F} (hrows : whole.rows = first.rows ++ second.rows)
    (h : Row.StartAnew second.rows) (habove : ofTable name first = .ok above)
    (hbelow : ofTable name second = .ok below) : ofTable name whole = .ok (above ++ below) := by
  rw [ofTable] at habove hbelow ⊢
  rw [hrows, Statement.ofRows_append h, fold_append (Statement.head?_ofRows h), habove, hbelow]
  rfl

theorem KeywordsTable.keywords_of_ofTable {moduleName : Text} {table : Table}
    {read : KeywordsTable} (h : ofTable moduleName table = .ok read) :
    Function.ofTable (fun cell => .declared moduleName (.plain cell)) table =
      .ok read.keywords := by
  unfold ofTable at h
  generalize Function.ofTable (F := UserKeyword) _ table = result at h ⊢
  cases result with
  | error cause => cases h
  | ok keywords =>
    cases h
    rfl

theorem TestCasesTable.testCases_of_ofTable {table : Table} {read : TestCasesTable}
    (h : ofTable table = .ok read) : Function.ofTable .plain table = .ok read.testCases := by
  unfold ofTable at h
  generalize Function.ofTable (F := TestCase) _ table = result at h ⊢
  cases result with
  | error cause => cases h
  | ok testCases =>
    cases h
    rfl

theorem KeywordsTable.ofTable_append {moduleName : Text} {a b : KeywordsTable}
    (hrows : whole.rows = first.rows ++ second.rows) (h : Row.StartAnew second.rows)
    (ha : ofTable moduleName first = .ok a) (hb : ofTable moduleName second = .ok b) :
    ofTable moduleName whole = .ok ⟨a.keywords ++ b.keywords, .parsed whole.span⟩ := by
  rw [ofTable, Function.ofTable_append _ hrows h (keywords_of_ofTable ha) (keywords_of_ofTable hb)]
  rfl

theorem TestCasesTable.ofTable_append {a b : TestCasesTable}
    (hrows : whole.rows = first.rows ++ second.rows) (h : Row.StartAnew second.rows)
    (ha : ofTable first = .ok a) (hb : ofTable second = .ok b) :
    ofTable whole = .ok ⟨a.testCases ++ b.testCases, .parsed whole.span⟩ := by
  rw [ofTable, Function.ofTable_append _ hrows h (testCases_of_ofTable ha) (testCases_of_ofTable hb)]
  rfl

end

namespace Suite

/-- What a table adds to a suite. -/
inductive Part where
  | unknown
  | settings (table : SettingsTable)
  | declarations (table : VariablesTable)
  | keywords (table : KeywordsTable)
  | testCases (table : TestCasesTable)

namespace Part

def kind? : Part → Option Table.Kind
  | unknown => none
  | settings _ => some .settings
  | declarations _ => some .declarations
  | keywords _ => some .keywords
  | testCases _ => some .testCases

/-- The part that a table of this kind is read as. -/
def ofKind (moduleName : Text) (table : Table) : Table.Kind → Except SourceError Part
  | .settings => .ok (settings (.ofTable table))
  | .declarations => .ok (declarations (.ofTable table))
  | .keywords => (KeywordsTable.ofTable moduleName table).map keywords
  | .testCases => (TestCasesTable.ofTable table).map testCases

def ofTable (moduleName : Text) (table : Table) : Except SourceError Part :=
  match Table.Kind.ofName? table.name with
  | none => .ok unknown
  | some kind => ofKind moduleName table kind

/-- Two parts of one kind as a single one. -/
def merge : Part → Part → Part
  | settings a, settings b => settings (a.merge b)
  | declarations a, declarations b => declarations (a.merge b)
  | keywords a, keywords b => keywords (a.merge b)
  | testCases a, testCases b => testCases (a.merge b)
  | _, later => later

/-- The part without its place if it is of this kind. -/
def unplaced : Part → Table.Kind → Part
  | settings table, .settings => settings table.unplaced
  | declarations table, .declarations => declarations table.unplaced
  | keywords table, .keywords => keywords table.unplaced
  | testCases table, .testCases => testCases table.unplaced
  | part, _ => part

theorem exists_ofKind (moduleName : Text) (table : Table) (kind : Table.Kind) :
    ∃ part, ofKind moduleName table kind = .ok part ∧ part.kind? = some kind := by
  cases kind with
  | settings => exact ⟨_, rfl, rfl⟩
  | declarations => exact ⟨_, rfl, rfl⟩
  | keywords =>
    obtain ⟨read, hread, -⟩ := KeywordsTable.ofTable_ok moduleName table
    exact ⟨keywords read, by rw [ofKind, hread]; rfl, rfl⟩
  | testCases =>
    obtain ⟨read, hread, -⟩ := TestCasesTable.ofTable_ok table
    exact ⟨testCases read, by rw [ofKind, hread]; rfl, rfl⟩

theorem exists_ofTable (moduleName : Text) (table : Table) :
    ∃ part, ofTable moduleName table = .ok part ∧
      part.kind? = Table.Kind.ofName? table.name := by
  unfold ofTable
  cases Table.Kind.ofName? table.name with
  | none => exact ⟨unknown, rfl, rfl⟩
  | some kind => exact exists_ofKind moduleName table kind

theorem ofKind_append {moduleName : Text} {kind : Table.Kind} {first second whole : Table}
    (hrows : whole.rows = first.rows ++ second.rows) (h : Row.StartAnew second.rows) {a b : Part}
    (ha : ofKind moduleName first kind = .ok a) (hb : ofKind moduleName second kind = .ok b) :
    ∃ both, ofKind moduleName whole kind = .ok both ∧
      both.unplaced kind = (a.merge b).unplaced kind := by
  cases kind with
  | settings =>
    cases ha
    cases hb
    exact ⟨_, rfl, congrArg settings (SettingsTable.unplaced_ofTable_append hrows h)⟩
  | declarations =>
    cases ha
    cases hb
    exact ⟨_, rfl, congrArg declarations (VariablesTable.unplaced_ofTable_append hrows h)⟩
  | keywords =>
    obtain ⟨above, habove, -⟩ := KeywordsTable.ofTable_ok moduleName first
    obtain ⟨below, hbelow, -⟩ := KeywordsTable.ofTable_ok moduleName second
    rw [ofKind, habove] at ha
    rw [ofKind, hbelow] at hb
    cases ha
    cases hb
    rw [ofKind, KeywordsTable.ofTable_append hrows h habove hbelow]
    exact ⟨_, rfl, rfl⟩
  | testCases =>
    obtain ⟨above, habove, -⟩ := TestCasesTable.ofTable_ok first
    obtain ⟨below, hbelow, -⟩ := TestCasesTable.ofTable_ok second
    rw [ofKind, habove] at ha
    rw [ofKind, hbelow] at hb
    cases ha
    cases hb
    rw [ofKind, TestCasesTable.ofTable_append hrows h habove hbelow]
    exact ⟨_, rfl, rfl⟩

end Part

def put (suite : Suite) : Part → Suite
  | .unknown => suite
  | .settings table =>
    { suite with settings? := some (mergeWith .merge suite.settings? table) }
  | .declarations table =>
    { suite with variables? := some (mergeWith .merge suite.variables? table) }
  | .keywords table =>
    { suite with keywords? := some (mergeWith .merge suite.keywords? table) }
  | .testCases table =>
    { suite with testCases? := some (mergeWith .merge suite.testCases? table) }

theorem addTable_eq_map (moduleName : Text) (suite : Suite) (table : Table) :
    addTable moduleName suite table = (Part.ofTable moduleName table).map suite.put := by
  unfold addTable Part.ofTable
  cases Table.Kind.ofName? table.name with
  | none => rfl
  | some kind =>
    cases kind with
    | settings => rfl
    | declarations => rfl
    | keywords =>
      dsimp only [Part.ofKind]
      cases KeywordsTable.ofTable moduleName table <;> rfl
    | testCases =>
      dsimp only [Part.ofKind]
      cases TestCasesTable.ofTable table <;> rfl

theorem foldlM_addTable {moduleName : Text} {tables : List Table} {parts : List Part}
    (h : List.Forall₂ (fun table part => Part.ofTable moduleName table = .ok part) tables parts)
    (suite : Suite) :
    tables.foldlM (addTable moduleName) suite = .ok (parts.foldl put suite) := by
  induction h generalizing suite with
  | nil => rfl
  | cons hpart hrest ih =>
    rw [List.foldlM_cons, addTable_eq_map, hpart]
    exact ih (suite.put _)

theorem put_comm (suite : Suite) {a b : Part} (h : a.kind? ≠ b.kind?) :
    (suite.put a).put b = (suite.put b).put a := by
  cases a <;> cases b <;> first | rfl | exact absurd rfl h

theorem foldl_put_comm (suite : Suite) {part : Part} {others : List Part}
    (h : ∀ other ∈ others, other.kind? ≠ part.kind?) :
    others.foldl put (suite.put part) = (others.foldl put suite).put part := by
  induction others generalizing suite with
  | nil => rfl
  | cons other others ih =>
    rw [List.forall_mem_cons] at h
    rw [List.foldl_cons, put_comm suite h.1.symm, ih _ h.2, List.foldl_cons]

theorem put_merge (suite : Suite) {a b : Part} (h : a.kind? = b.kind?) :
    suite.put (a.merge b) = (suite.put a).put b := by
  cases a <;> cases b <;> simp_all [Part.kind?, Part.merge, put, mergeWith_merge]

theorem unplaced_put (suite : Suite) (part : Part) (kind : Table.Kind) :
    (suite.put part).unplaced kind = (suite.unplaced kind).put (part.unplaced kind) := by
  cases kind with
  | settings =>
    cases part with
    | settings table =>
      simp [put, unplaced, Part.unplaced, mergeWith_map SettingsTable.merge_unplaced]
    | _ => rfl
  | declarations =>
    cases part with
    | declarations table =>
      simp [put, unplaced, Part.unplaced, mergeWith_map VariablesTable.merge_unplaced]
    | _ => rfl
  | keywords =>
    cases part with
    | keywords table =>
      simp [put, unplaced, Part.unplaced, mergeWith_map KeywordsTable.merge_unplaced]
    | _ => rfl
  | testCases =>
    cases part with
    | testCases table =>
      simp [put, unplaced, Part.unplaced, mergeWith_map TestCasesTable.merge_unplaced]
    | _ => rfl

theorem unplaced_foldl_put (suite : Suite) (parts : List Part) (kind : Table.Kind) :
    (parts.foldl put suite).unplaced kind =
      (parts.map (·.unplaced kind)).foldl put (suite.unplaced kind) := by
  induction parts generalizing suite with
  | nil => rfl
  | cons part parts ih => rw [List.foldl_cons, ih, unplaced_put, List.map_cons, List.foldl_cons]

theorem unplaced_empty (location : Location) (kind : Table.Kind) :
    (empty location).unplaced kind = empty .synthetic := by
  cases kind <;> rfl

theorem foldl_put_repeated (suite : Suite) {a b : Part} (hkind : a.kind? = b.kind?)
    {left right : List Part} (hleft : ∀ other ∈ left, other.kind? ≠ a.kind?)
    (hright : ∀ other ∈ right, other.kind? ≠ b.kind?) (before after : List Part) :
    (before ++ a :: (left ++ right) ++ b :: after).foldl put suite =
      (before ++ left ++ a.merge b :: (right ++ after)).foldl put suite := by
  simp only [List.foldl_append, List.foldl_cons]
  rw [foldl_put_comm _ hleft, ← foldl_put_comm _ hright, put_merge _ hkind]

def ReadAs (moduleName : Text) : List Table → List Part → Prop :=
  List.Forall₂ fun table part => Part.ofTable moduleName table = .ok part

section

variable {moduleName : Text}

theorem ReadAs.append {tables others : List Table} {parts added : List Part}
    (h : ReadAs moduleName tables parts) (hothers : ReadAs moduleName others added) :
    ReadAs moduleName (tables ++ others) (parts ++ added) :=
  List.rel_append h hothers

theorem ReadAs.cons_of_kind {kind : Table.Kind} {table : Table} {part : Part} {tables : List Table}
    {parts : List Part} (hkind : Table.Kind.ofName? table.name = some kind)
    (hpart : Part.ofKind moduleName table kind = .ok part) (h : ReadAs moduleName tables parts) :
    ReadAs moduleName (table :: tables) (part :: parts) :=
  .cons (by rwa [Part.ofTable, hkind]) h

theorem ReadAs.ofTables_eq {tables : List Table} {parts : List Part}
    (h : ReadAs moduleName tables parts) :
    ofTables moduleName tables = .ok (parts.foldl put (.empty (.parsed (spanOf tables)))) :=
  foldlM_addTable h _

theorem exists_readAs (moduleName : Text) (kind : Table.Kind) (tables : List Table) :
    ∃ parts, ReadAs moduleName tables parts ∧
      ((∀ table ∈ tables, Table.Kind.ofName? table.name ≠ some kind) →
        ∀ part ∈ parts, part.kind? ≠ some kind) := by
  induction tables with
  | nil => exact ⟨[], .nil, by simp⟩
  | cons table tables ih =>
    obtain ⟨part, hpart, hkind⟩ := Part.exists_ofTable moduleName table
    obtain ⟨parts, hparts, hkinds⟩ := ih
    refine ⟨part :: parts, .cons hpart hparts, fun h => ?_⟩
    rw [List.forall_mem_cons] at h ⊢
    exact ⟨hkind ▸ h.1, hkinds h.2⟩

end

/-- Two tables of a kind, with only others between them, give the same suite as one table
that holds the rows of both; it may stand anywhere between them. -/
theorem ofTables_repeated (moduleName : Text) {kind : Table.Kind} {first second whole : Table}
    (hfirst : Table.Kind.ofName? first.name = some kind)
    (hsecond : Table.Kind.ofName? second.name = some kind)
    (hwhole : Table.Kind.ofName? whole.name = some kind)
    (hrows : whole.rows = first.rows ++ second.rows) (hanew : Row.StartAnew second.rows)
    (before left right after : List Table)
    (hothers : ∀ table ∈ left ++ right, Table.Kind.ofName? table.name ≠ some kind) :
    ∃ twice once,
      ofTables moduleName (before ++ first :: (left ++ right) ++ second :: after) = .ok twice ∧
      ofTables moduleName (before ++ left ++ whole :: (right ++ after)) = .ok once ∧
      twice.unplaced kind = once.unplaced kind := by
  rw [List.forall_mem_append] at hothers
  obtain ⟨a, ha, hakind⟩ := Part.exists_ofKind moduleName first kind
  obtain ⟨b, hb, hbkind⟩ := Part.exists_ofKind moduleName second kind
  obtain ⟨both, hboth, hunplaced⟩ := Part.ofKind_append hrows hanew ha hb
  obtain ⟨above, habove, -⟩ := exists_readAs moduleName kind before
  obtain ⟨below, hbelow, -⟩ := exists_readAs moduleName kind after
  obtain ⟨left', hleft, hlefts⟩ := exists_readAs moduleName kind left
  obtain ⟨right', hright, hrights⟩ := exists_readAs moduleName kind right
  have htwice := (habove.append (.cons_of_kind hfirst ha (hleft.append hright))).append
    (.cons_of_kind hsecond hb hbelow)
  have honce := (habove.append hleft).append (.cons_of_kind hwhole hboth (hright.append hbelow))
  refine ⟨_, _, htwice.ofTables_eq, honce.ofTables_eq, ?_⟩
  rw [foldl_put_repeated _ (hakind.trans hbkind.symm) (hakind ▸ hlefts hothers.1)
    (hbkind ▸ hrights hothers.2)]
  simp only [unplaced_foldl_put, unplaced_empty, List.map_append, List.map_cons, hunplaced]

/-- Settings around a table of an unknown kind; the second table begins with an empty row and
replaces the tags of the first. -/
theorem ofTables_repeated_settings :
    let row (number : Nat) (line : String) := Row.read number line.toList
    let first : Table := ⟨"Settings".toList, row 0 "*** Settings ***",
      [row 1 "Library    a", row 2 "Force Tags    x"]⟩
    let comments : Table := ⟨"Comments".toList, row 3 "*** Comments ***", []⟩
    let second : Table := ⟨"Setting".toList, row 4 "*** Setting ***",
      [row 5 "", row 6 "Force Tags    y", row 7 "...    z", row 8 "Library    b"]⟩
    let whole : Table := ⟨"SETTINGS".toList, row 0 "*** SETTINGS ***", first.rows ++ second.rows⟩
    Row.StartAnew second.rows ∧ ∃ twice once,
      ofTables "m".toList [first, comments, second] = .ok twice ∧
      ofTables "m".toList [comments, whole] = .ok once ∧
      twice.unplaced .settings = once.unplaced .settings := by
  intro row first comments second whole
  have hanew : Row.StartAnew second.rows := by
    dsimp only [second, row]
    decide +kernel
  refine ⟨hanew, ?_⟩
  have hothers : ∀ table ∈ [comments], Table.Kind.ofName? table.name ≠ some .settings := by
    dsimp only [comments, row]
    decide
  have hfirst : Table.Kind.ofName? first.name = some .settings := by
    dsimp only [first]
    decide
  exact ofTables_repeated "m".toList hfirst rfl rfl rfl hanew [] [comments] [] [] hothers

end Suite

end SuiteIndex
