import SuiteIndex.Index.Symbol
import SuiteIndex.Proofs.Suite.Attribution
import SuiteIndex.Proofs.Suite.Target

/-! # Arguments as a caller writes them

An argument is declared by a reference, alone or with a default behind an equals sign. The
symbol of a keyword shows its arguments in their order and each as it is declared, unless the
default refers to a variable: then the reference is shown without it.
-/

namespace SuiteIndex

/-- A reference and the default behind it, if it has one. -/
def Argument.written (reference : Text) : Option Text → Text
  | some default => reference ++ '=' :: default
  | none => reference

/-- How an argument is shown: whole, unless its default refers to a variable. -/
inductive Argument.ShownAs : Text → Text → Prop where
  | whole {reference : Text} (default? : Option Text) (h : Token.Reference reference)
    (hplain : ∀ default ∈ default?, ¬ Token.Mentions default) :
    ShownAs (written reference default?) (written reference default?)
  | cut {reference default : Text} (h : Token.Reference reference)
    (hmentions : Token.Mentions default) : ShownAs (written reference (some default)) reference

/-- An argument whose default refers to a variable. -/
def Argument.Varies (content : Text) : Prop :=
  ∃ reference default, Token.Reference reference ∧ Token.Mentions default ∧
    content = written reference (some default)

namespace Target

variable {cell : Cell} {target : Target}

/-- Behind the reference of an argument there is nothing but white space, or its default. -/
theorem exists_argument (h : ofCell? true cell = some target) :
    ∃ reference rest, Token.Reference reference ∧ cell.content = reference ++ rest ∧
      target.toDeclaration.displayName = reference ∧
      (Text.trim rest = [] ∧ target.default? = none ∨ ∃ default span,
        rest = '=' :: default ∧ target.default? = some (.ofCell ⟨default, span⟩)) := by
  cases declares_of_ofCell? h with
  | alone _ hname hcontent hrest =>
    exact ⟨_, _, VariableKind.reference_of_isName _ hname, hcontent, rfl,
      .inl ⟨Text.trim_eq_nil_iff.2 hrest, rfl⟩⟩
  | default hname hcontent =>
    exact ⟨_, _, VariableKind.reference_of_isName _ hname, hcontent, rfl, .inr ⟨_, _, rfl, rfl⟩⟩

theorem argumentText_toDeclaration (target : Target) : target.toDeclaration.argumentText =
    Argument.written target.toDeclaration.displayName
      ((target.default?.bind Expression.literal?).map Literal.value) := by
  unfold Declaration.argumentText toDeclaration
  cases target.default? with
  | none => rfl
  | some value => cases hvalue : value.literal? <;> simp [hvalue, Argument.written]

end Target

theorem Expression.literal?_ofCell (cell : Cell) :
    (¬ Token.Mentions cell.content ∧ (ofCell cell).literal? = some (.ofCell cell)) ∨
      (Token.Mentions cell.content ∧ (ofCell cell).literal? = none) := by
  obtain ⟨hnone, heq⟩ | ⟨use, hwhole, heq, -⟩ | ⟨hmentions, -, heq⟩ := ofCell_cases cell
  · exact .inl ⟨hnone, by rw [heq]; rfl⟩
  · exact .inr ⟨hwhole.mentions, by rw [heq]; rfl⟩
  · exact .inr ⟨hmentions, by rw [heq]; rfl⟩

namespace Argument

variable {cell : Cell} {target : Target}

theorem eq_nil_of_trim_eq_nil {reference rest : Text}
    (hlast : ∀ c, (reference ++ rest).getLast? = some c → Text.isBlank c = false)
    (h : Text.trim rest = []) : rest = [] := by
  rcases List.eq_nil_or_concat rest with hrest | ⟨front, c, rfl⟩
  · exact hrest
  · rw [List.concat_eq_append] at hlast h
    have hblank := Text.isBlank_of_trim_eq_nil h c (by simp)
    rw [hlast c (by simp)] at hblank
    cases hblank

theorem shownAs_of_ofCell?
    (hlast : ∀ c, cell.content.getLast? = some c → Text.isBlank c = false)
    (h : Target.ofCell? true cell = some target) :
    ShownAs cell.content target.toDeclaration.argumentText := by
  obtain ⟨reference, rest, hreference, hcontent, hname, hrest⟩ := Target.exists_argument h
  rw [Target.argumentText_toDeclaration, hname, hcontent]
  rw [hcontent] at hlast
  obtain ⟨hempty, hdefault⟩ | ⟨default, span, rfl, hdefault⟩ := hrest
  · rw [hdefault, eq_nil_of_trim_eq_nil hlast hempty, List.append_nil]
    exact ShownAs.whole none hreference (by simp)
  · rw [hdefault, Option.bind_some]
    obtain ⟨hplain, hvalue⟩ | ⟨hmentions, hvalue⟩ := Expression.literal?_ofCell ⟨default, span⟩
    · rw [hvalue]
      exact ShownAs.whole (some default) hreference (by simpa using hplain)
    · rw [hvalue]
      exact ShownAs.cut hreference hmentions

/-- Whether the cell declares an argument. -/
def accepts (cell : Cell) : Bool :=
  (Target.ofCell? true cell).isSome

theorem accepts_written {reference : Text} {default? : Option Text}
    (h : Token.Reference reference) (hcontent : cell.content = written reference default?) :
    accepts cell = true := by
  obtain ⟨kind, name, hname, rfl⟩ := VariableKind.exists_of_reference h
  cases default? with
  | none =>
    have halone : cell.content = kind.reference name ++ [] := by
      rw [hcontent, List.append_nil]
      rfl
    rw [accepts, (Target.Declares.alone true hname halone (by simp)).ofCell?_eq]
    rfl
  | some default =>
    rw [accepts, (Target.Declares.default hname hcontent).ofCell?_eq]
    rfl

theorem ShownAs.exists_written {content shown : Text} (h : ShownAs content shown) :
    ∃ reference default?, Token.Reference reference ∧ content = written reference default? := by
  cases h with
  | whole default? hreference _ => exact ⟨_, default?, hreference, rfl⟩
  | cut hreference _ => exact ⟨_, _, hreference, rfl⟩

theorem accepts_iff (hlast : ∀ c, cell.content.getLast? = some c → Text.isBlank c = false) :
    accepts cell = true ↔ ∃ reference default?, Token.Reference reference ∧
      cell.content = written reference default? := by
  constructor
  · intro h
    obtain ⟨target, htarget⟩ := Option.isSome_iff_exists.1 h
    exact (shownAs_of_ofCell? hlast htarget).exists_written
  · rintro ⟨reference, default?, hreference, hcontent⟩
    exact accepts_written hreference hcontent

theorem written_injective {left right : Text} {default? other? : Option Text}
    (hleft : Token.Reference left) (hright : Token.Reference right)
    (h : written left default? = written right other?) : left = right ∧ default? = other? := by
  have hsplit : ∀ reference default?, written reference default? =
      reference ++ (default?.map ('=' :: ·)).getD [] := by
    intro reference default?
    cases default? <;> simp [written]
  rw [hsplit, hsplit] at h
  obtain ⟨hsame, hbehind⟩ := hleft.eq_of_append_eq hright h
  refine ⟨hsame, ?_⟩
  cases default? <;> cases other? <;> simp_all

/-- Just the arguments with a variable in their default are not shown as they are declared. -/
theorem ShownAs.eq_iff {content shown : Text} (h : ShownAs content shown) :
    shown = content ↔ ¬ Varies content := by
  cases h with
  | whole default? hreference hplain =>
    refine iff_of_true rfl ?_
    rintro ⟨other, default, hother, hmentions, heq⟩
    obtain ⟨-, rfl⟩ := written_injective hreference hother heq
    exact hplain default rfl hmentions
  | cut hreference hmentions =>
    refine iff_of_false ?_ fun hvaries => hvaries ⟨shown, _, hreference, hmentions, rfl⟩
    intro heq
    have hlength := congrArg List.length heq
    simp [written] at hlength

theorem eq_map_content_iff {contents shown : List Text} (h : List.Forall₂ ShownAs contents shown) :
    shown = contents ↔ ∀ content ∈ contents, ¬ Varies content := by
  induction h with
  | nil => simp
  | cons hfirst _ ih => rw [List.cons.injEq, hfirst.eq_iff, ih, List.forall_mem_cons]

def shown? (cell : Cell) : Option Text :=
  (Target.ofCell? true cell).map (·.toDeclaration.argumentText)

theorem forall₂_shownAs {cells : List Cell} (hwhole : ∀ cell ∈ cells, Segment.Whole cell.content) :
    List.Forall₂ ShownAs ((cells.filter accepts).map Cell.content) (cells.filterMap shown?) := by
  induction cells with
  | nil => exact .nil
  | cons cell cells ih =>
    rw [List.forall_mem_cons] at hwhole
    cases htarget : Target.ofCell? true cell with
    | none =>
      have htext : shown? cell = none := by rw [shown?, htarget]; rfl
      rw [List.filter_cons_of_neg (by simp [accepts, htarget]), List.filterMap_cons_none htext]
      exact ih hwhole.2
    | some target =>
      have htext : shown? cell = some target.toDeclaration.argumentText := by
        rw [shown?, htarget]
        rfl
      rw [List.filter_cons_of_pos (by simp [accepts, htarget]), List.map_cons,
        List.filterMap_cons_some htext]
      exact .cons (shownAs_of_ofCell? hwhole.1.last htarget) (ih hwhole.2)

end Argument

theorem Statement.forall_cells_fold {p : Cell → Prop} {style : Continuation}
    {current : Option Statement} {rows : List Row}
    (hcurrent : ∀ statement ∈ current, ∀ cell ∈ statement.cells, p cell)
    (hrows : ∀ row ∈ rows, ∀ cell ∈ row.cells, p cell) :
    ∀ statement ∈ fold style current rows, ∀ cell ∈ statement.cells, p cell := by
  induction rows generalizing current with
  | nil => simpa [fold] using hcurrent
  | cons row rows ih =>
    rw [List.forall_mem_cons] at hrows
    simp only [fold]
    split
    · exact ih hcurrent hrows.2
    · split
      · refine ih (fun statement hstatement cell hcell => ?_) hrows.2
        obtain ⟨before, hbefore, rfl⟩ := Option.map_eq_some_iff.1 hstatement
        rcases List.mem_append.1 hcell with hcell | hcell
        · exact hcurrent before hbefore cell hcell
        · exact hrows.1 cell (row.continuation_sublist.subset hcell)
      · split
        · exact ih hcurrent hrows.2
        · intro statement hstatement
          rcases List.mem_append.1 hstatement with hstatement | hstatement
          · exact hcurrent statement (Option.mem_toList.1 hstatement)
          · refine ih (fun opened hopened => ?_) hrows.2 statement hstatement
            obtain rfl := Option.some.inj hopened
            exact hrows.1

theorem Table.whole_of_mem_read {text : Text} {table : Table} (htable : table ∈ read text)
    {style : Continuation} {statement : Statement}
    (hstatement : statement ∈ Statement.ofRows style table.rows) {cell : Cell}
    (hcell : cell ∈ statement.cells) : Segment.Whole cell.content := by
  have hrows : ∀ row ∈ table.rows, ∀ cell ∈ row.cells, Segment.Whole cell.content := by
    intro row hrow cell hcell
    obtain ⟨number, line, body, -, -, hshows⟩ := read_shows_lines text htable (.inr hrow)
    exact hshows.whole cell hcell
  exact Statement.forall_cells_fold (by simp) hrows statement hstatement cell hcell

theorem Clause.mem_of_last? {accepted : List Setting} {setting : Setting} {clauses : List Clause}
    {clause : Clause} (h : last? accepted setting clauses = some clause) : clause ∈ clauses :=
  List.mem_of_mem_filter (List.mem_of_getLast? h)

theorem Block.exists_statement {block : Block} {clause : Clause} (hclause : clause ∈ block.clauses)
    {cell : Cell} (hcell : cell ∈ clause.cells) :
    ∃ statement ∈ block.statements, cell ∈ statement.cells := by
  have hmem : ∀ {span : Span} {cells : List Cell}, Clause.of? span cells = some clause →
      cell ∈ cells := by
    intro span cells h
    obtain ⟨front, back, hsplit, -⟩ := (Clause.takenFrom_of? h).split
    simp [hsplit, hcell]
  rcases List.mem_append.1 hclause with hclause | hclause
  · have hbehind := hmem (Option.mem_toList.1 hclause)
    exact ⟨_, List.mem_cons_self, List.mem_cons_of_mem _ hbehind⟩
  · obtain ⟨statement, hstatement, hof⟩ := List.mem_filterMap.1 hclause
    exact ⟨statement, List.mem_cons_of_mem _ hstatement, hmem hof⟩

/-- The cells behind the last setting of arguments. -/
def Block.argumentCells (block : Block) : List Cell :=
  (Clause.last? Setting.ofKeyword .arguments block.clauses).elim [] Clause.rest

theorem Block.whole_argumentCells {text : Text} {table : Table} (htable : table ∈ Table.read text)
    {orphans : List Statement} {blocks : List Block}
    (h : Attribution (Statement.ofRows .indented table.rows) orphans blocks) {block : Block}
    (hblock : block ∈ blocks) : ∀ cell ∈ block.argumentCells, Segment.Whole cell.content := by
  intro cell hcell
  unfold argumentCells at hcell
  cases hclause : Clause.last? Setting.ofKeyword .arguments block.clauses with
  | none => simp [hclause] at hcell
  | some clause =>
    rw [hclause] at hcell
    obtain ⟨statement, hstatement, hmem⟩ :=
      exists_statement (Clause.mem_of_last? hclause) (List.mem_cons_of_mem _ hcell)
    have hread : statement ∈ Statement.ofRows .indented table.rows := by
      rw [h.complete]
      exact List.mem_append_right _ (List.mem_flatMap.2 ⟨block, hblock, hstatement⟩)
    exact Table.whole_of_mem_read htable hread hmem

namespace Argument.Sample

/-- An argument without a default, and defaults that are plain text, empty, and mixed with a
variable. The last cell declares no argument. -/
def text : Text :=
  Text.join ['\n'] ["*Keyword".toList, "K".toList,
    "  [Arguments]  @\x7ba\x7d  $\x7bb\x7d=x".toList,
    "  ...  $\x7bc\x7d=  $\x7bd\x7d=<$\x7ba\x7d>  $\x7be\x7dx".toList]

def header : Row :=
  ⟨[⟨"*Keyword".toList, .onLine 0 0 8⟩], .onLine 0 0 8⟩

def named : Row :=
  ⟨[⟨"K".toList, .onLine 1 0 1⟩], .onLine 1 0 1⟩

def setting : Row :=
  ⟨[⟨[], .onLine 2 0 0⟩, ⟨"[Arguments]".toList, .onLine 2 2 13⟩,
    ⟨"@\x7ba\x7d".toList, .onLine 2 15 19⟩, ⟨"$\x7bb\x7d=x".toList, .onLine 2 21 27⟩],
    .onLine 2 0 27⟩

def more : Row :=
  ⟨[⟨[], .onLine 3 0 0⟩, ⟨"...".toList, .onLine 3 2 5⟩, ⟨"$\x7bc\x7d=".toList, .onLine 3 7 12⟩,
    ⟨"$\x7bd\x7d=<$\x7ba\x7d>".toList, .onLine 3 14 25⟩,
    ⟨"$\x7be\x7dx".toList, .onLine 3 27 32⟩],
    .onLine 3 0 32⟩

def table : Table :=
  ⟨"Keyword".toList, header, [named, setting, more]⟩

def block : Block :=
  ⟨⟨"K".toList, .onLine 1 0 1⟩, [], .onLine 1 0 1, [(Statement.ofRow setting).extend more]⟩

/-- The contents of the cells that declare an argument. -/
def declared : List Text :=
  ["@\x7ba\x7d".toList, "$\x7bb\x7d=x".toList, "$\x7bc\x7d=".toList,
    "$\x7bd\x7d=<$\x7ba\x7d>".toList]

def shown : List Text :=
  ["@\x7ba\x7d".toList, "$\x7bb\x7d=x".toList, "$\x7bc\x7d=".toList, "$\x7bd\x7d".toList]

theorem table_mem_read : table ∈ Table.read text := by
  have hrows : Row.readFrom 0 (Text.lines text) = [header, named, setting, more] := by
    decide +kernel
  have hread : Table.read text = [table] := by
    rw [Table.read, hrows]
    rfl
  exact hread ▸ List.mem_singleton_self _

theorem attribution : Attribution (Statement.ofRows .indented table.rows) [] [block] := by
  constructor
  · rfl
  · simp
  · simp [block, Cell.isEmpty]
  · simp [block, Statement.ofRow, Statement.extend, setting, Statement.startsFilled, Cell.isEmpty]

end Argument.Sample

namespace KeywordSymbol

theorem arguments_keyword (owner : Text) (origin : Origin) (moduleName : Text) (block : Block) :
    (ofKeyword owner origin (block.keyword moduleName)).arguments =
      block.argumentCells.filterMap Argument.shown? := by
  unfold ofKeyword Block.keyword UserKeyword.assembled Block.argumentCells Clause.read?
  cases Clause.last? Setting.ofKeyword .arguments block.clauses with
  | none => rfl
  | some clause =>
    show (Arguments.ofCells clause.first clause.rest).values.map Declaration.argumentText = _
    rw [Arguments.ofCells, List.map_filterMap]
    simp only [Option.map_map]
    rfl

/-- The symbol of a keyword shows, in their order, the cells of its last setting of arguments that
declare one. A cell declares an argument if it is a reference, alone or with a default behind an
equals sign, and it is shown whole just if the default refers to no variable. -/
theorem arguments_of_table {text : Text} {table : Table} (htable : table ∈ Table.read text)
    {orphans : List Statement} {blocks : List Block}
    (h : Attribution (Statement.ofRows .indented table.rows) orphans blocks) (moduleName : Text) :
    KeywordsTable.ofTable moduleName table =
        .ok ⟨blocks.map (Block.keyword moduleName), .parsed table.span⟩ ∧
      ∀ block ∈ blocks, ∀ (owner : Text) (origin : Origin),
        let declared := (block.argumentCells.filter Argument.accepts).map Cell.content
        let shown := (ofKeyword owner origin (block.keyword moduleName)).arguments
        (∀ cell ∈ block.argumentCells, Argument.accepts cell = true ↔
          ∃ reference default?, Token.Reference reference ∧
            cell.content = Argument.written reference default?) ∧
        List.Forall₂ Argument.ShownAs declared shown ∧
        (shown = declared ↔ ∀ content ∈ declared, ¬ Argument.Varies content) := by
  refine ⟨KeywordsTable.ofTable_attribution moduleName h, fun block hblock owner origin => ?_⟩
  have hwhole := Block.whole_argumentCells htable h hblock
  have hshown := Argument.forall₂_shownAs hwhole
  rw [← arguments_keyword owner origin moduleName block] at hshown
  refine ⟨fun cell hcell => ?_, hshown, Argument.eq_map_content_iff hshown⟩
  exact Argument.accepts_iff (hwhole cell hcell).last

section

open Argument.Sample

theorem arguments_of_table_sample :
    table ∈ Table.read text ∧ Attribution (Statement.ofRows .indented table.rows) [] [block] ∧
      KeywordsTable.ofTable "m".toList table =
        .ok ⟨[block.keyword "m".toList], .parsed table.span⟩ ∧
      (block.argumentCells.filter Argument.accepts).map Cell.content = declared ∧
      (ofKeyword [] (.library []) (block.keyword "m".toList)).arguments = shown ∧
      List.Forall₂ Argument.ShownAs declared shown := by
  obtain ⟨hkeywords, hsymbol⟩ := arguments_of_table table_mem_read attribution "m".toList
  obtain ⟨-, hshownAs, -⟩ := hsymbol block (List.mem_singleton_self _) [] (.library [])
  have hdeclared : (block.argumentCells.filter Argument.accepts).map Cell.content = declared := by
    decide +kernel
  have hshown : (ofKeyword [] (.library []) (block.keyword "m".toList)).arguments = shown := by
    decide +kernel
  rw [hdeclared, hshown] at hshownAs
  exact ⟨table_mem_read, attribution, hkeywords, hdeclared, hshown, hshownAs⟩

/-- The default with the variable is declared, but not shown. -/
theorem variable_default_not_shown :
    table ∈ Table.read text ∧ Attribution (Statement.ofRows .indented table.rows) [] [block] ∧
      (block.argumentCells.filter Argument.accepts).map Cell.content = declared ∧
      (ofKeyword [] (.library []) (block.keyword "m".toList)).arguments ≠ declared := by
  have hshown : (ofKeyword [] (.library []) (block.keyword "m".toList)).arguments = shown := by
    decide +kernel
  refine ⟨table_mem_read, attribution, by decide +kernel, ?_⟩
  rw [hshown]
  decide

end

end KeywordSymbol

end SuiteIndex
