import Mathlib.Data.List.Basic
import Mathlib.Data.List.TakeWhile
import SuiteIndex.Table.Statement

/-! # Rows and their statements

The rows of a table fall into groups: a row that opens a statement, and the rows down to the
next such row. A row opens a statement if its first filled cell is no marker, so the groups are
the same for both places a marker can stand in. Each group is one statement. It takes in the
rows of its group whose marker stands where the style wants it; empty rows, misplaced markers
and all rows above the first group leave no trace.
-/

namespace SuiteIndex

namespace Row

/-- The row holds empty cells, then a filled one, then others. -/
structure FirstFilled (row : Row) (empties : List Cell) (cell : Cell) (others : List Cell) :
    Prop where
  cells : row.cells = empties ++ cell :: others
  empties : ∀ other ∈ empties, other.content = []
  filled : cell.content ≠ []

def OpensStatement (row : Row) : Prop :=
  ∃ empties cell others, row.FirstFilled empties cell others ∧ cell.content ≠ "...".toList

/-- The first filled cell is a marker with these cells behind it. It is the first cell of the
row in the one style, and stands behind empty ones in the other. -/
def ContinuesWith (row : Row) (style : Continuation) (others : List Cell) : Prop :=
  ∃ empties marker, row.FirstFilled empties marker others ∧ marker.content = "...".toList ∧
    (empties = [] ↔ style = .firstCell)

theorem exists_firstFilled {row : Row} (h : row.isEmpty = false) :
    ∃ empties cell others, row.FirstFilled empties cell others := by
  cases hdrop : row.cells.dropWhile Cell.isEmpty with
  | nil =>
    have hall : row.isEmpty = true := List.all_eq_true.2 (List.dropWhile_eq_nil_iff.1 hdrop)
    rw [h] at hall
    cases hall
  | cons cell others =>
    refine ⟨row.cells.takeWhile Cell.isEmpty, cell, others, ?_, ?_, ?_⟩
    · rw [← hdrop, List.takeWhile_append_dropWhile]
    · intro other hother
      simpa [Cell.isEmpty] using List.mem_takeWhile_imp hother
    · have hhead := List.head?_dropWhile_not Cell.isEmpty row.cells
      simpa [hdrop, Cell.isEmpty] using hhead

namespace FirstFilled

variable {row : Row} {empties others : List Cell} {cell : Cell}

theorem isEmpty_of_mem (h : row.FirstFilled empties cell others) :
    ∀ other ∈ empties, other.isEmpty = true :=
  fun other hother => List.isEmpty_iff.2 (h.empties other hother)

theorem isEmpty_cell (h : row.FirstFilled empties cell others) : cell.isEmpty = false := by
  simpa [Cell.isEmpty] using h.filled

theorem dropWhile_eq (h : row.FirstFilled empties cell others) :
    row.cells.dropWhile Cell.isEmpty = cell :: others := by
  rw [h.cells, List.dropWhile_append_of_pos h.isEmpty_of_mem]
  simp [h.isEmpty_cell]

theorem firstFilled?_eq (h : row.FirstFilled empties cell others) :
    row.firstFilled? = some (empties.length, cell) := by
  rw [firstFilled?, h.dropWhile_eq, h.cells, List.takeWhile_append_of_pos h.isEmpty_of_mem]
  simp [h.isEmpty_cell]

theorem isEmpty_eq (h : row.FirstFilled empties cell others) : row.isEmpty = false := by
  simp [isEmpty, h.cells, h.isEmpty_cell]

theorem hasMarker_eq (h : row.FirstFilled empties cell others) :
    row.hasMarker = cell.isMarker := by
  simp [hasMarker, h.firstFilled?_eq]

theorem continuation_eq (h : row.FirstFilled empties cell others) :
    row.continuation = if cell.isMarker then others else [] := by
  simp [continuation, h.dropWhile_eq]

theorem continues_iff (h : row.FirstFilled empties cell others) (style : Continuation) :
    row.continues style = true ↔ cell.isMarker = true ∧ (empties = [] ↔ style = .firstCell) := by
  cases style <;> cases empties <;> simp [continues, h.firstFilled?_eq]

end FirstFilled

theorem firstFilled?_of_isEmpty {row : Row} (h : row.isEmpty = true) :
    row.firstFilled? = none := by
  rw [firstFilled?, List.dropWhile_eq_nil_iff.2 (List.all_eq_true.1 h)]

theorem continues_of_isEmpty {row : Row} (h : row.isEmpty = true) (style : Continuation) :
    row.continues style = false := by
  cases style <;> simp [continues, firstFilled?_of_isEmpty h]

theorem hasMarker_of_continues {row : Row} {style : Continuation}
    (h : row.continues style = true) : row.hasMarker = true := by
  have hempty : row.isEmpty ≠ true := fun hempty => by
    simp [continues_of_isEmpty hempty] at h
  obtain ⟨empties, cell, others, hfirst⟩ := exists_firstFilled (Bool.eq_false_iff.2 hempty)
  rw [hfirst.hasMarker_eq]
  exact ((hfirst.continues_iff style).1 h).1

theorem opensStatement_iff (row : Row) :
    row.OpensStatement ↔ row.isEmpty = false ∧ row.hasMarker = false := by
  constructor
  · rintro ⟨empties, cell, others, hfirst, hcell⟩
    exact ⟨hfirst.isEmpty_eq, hfirst.hasMarker_eq.trans (decide_eq_false hcell)⟩
  · rintro ⟨hempty, hmarker⟩
    obtain ⟨empties, cell, others, hfirst⟩ := exists_firstFilled hempty
    rw [hfirst.hasMarker_eq] at hmarker
    exact ⟨empties, cell, others, hfirst, of_decide_eq_false hmarker⟩

instance (row : Row) : Decidable row.OpensStatement :=
  decidable_of_iff _ row.opensStatement_iff.symm

theorem continues_and_continuation_iff (row : Row) (style : Continuation) (others : List Cell) :
    row.continues style = true ∧ row.continuation = others ↔ row.ContinuesWith style others := by
  constructor
  · rintro ⟨hcontinues, hcells⟩
    have hempty : row.isEmpty ≠ true := fun h => by
      simp [continues_of_isEmpty h] at hcontinues
    obtain ⟨empties, cell, behind, hfirst⟩ := exists_firstFilled (Bool.eq_false_iff.2 hempty)
    obtain ⟨hmarker, hstyle⟩ := (hfirst.continues_iff style).1 hcontinues
    rw [hfirst.continuation_eq, if_pos hmarker] at hcells
    subst hcells
    exact ⟨empties, cell, hfirst, of_decide_eq_true hmarker, hstyle⟩
  · rintro ⟨empties, marker, hfirst, hcontent, hstyle⟩
    have hmarker : marker.isMarker = true := decide_eq_true hcontent
    refine ⟨(hfirst.continues_iff style).2 ⟨hmarker, hstyle⟩, ?_⟩
    rw [hfirst.continuation_eq, if_pos hmarker]

end Row

/-- A row that opens a statement, and the rows down to the next such row. -/
structure RowGroup where
  first : Row
  below : List Row

namespace RowGroup

def rows (group : RowGroup) : List Row :=
  group.first :: group.below

/-- The rows that continue the statement of the first one. -/
def continuing (style : Continuation) (group : RowGroup) : List Row :=
  group.below.filter (·.continues style)

/-- The cells of the first row and those behind the markers of the rows that continue it, in
a span around all of these rows. -/
def statement (style : Continuation) (group : RowGroup) : Statement where
  cells := group.first.cells ++ (group.continuing style).flatMap Row.continuation
  span := (group.continuing style).foldl (fun span row => span.cover row.span) group.first.span

end RowGroup

/-- The rows are cut in front of those that open a statement, each once and in order. -/
structure Grouping (rows above : List Row) (groups : List RowGroup) : Prop where
  complete : rows = above ++ groups.flatMap RowGroup.rows
  above : ∀ row ∈ above, ¬ row.OpensStatement
  first : ∀ group ∈ groups, group.first.OpensStatement
  below : ∀ group ∈ groups, ∀ row ∈ group.below, ¬ row.OpensStatement

theorem exists_grouping (rows : List Row) : ∃ above groups, Grouping rows above groups := by
  induction rows with
  | nil => exact ⟨[], [], rfl, by simp, by simp, by simp⟩
  | cons row rest ih =>
    obtain ⟨above, groups, hrest, habove, hfirst, hbelow⟩ := ih
    by_cases h : row.OpensStatement
    · refine ⟨[], ⟨row, above⟩ :: groups, ?_, by simp, ?_, ?_⟩
      · rw [hrest]
        rfl
      · exact List.forall_mem_cons.2 ⟨h, hfirst⟩
      · exact List.forall_mem_cons.2 ⟨habove, hbelow⟩
    · refine ⟨row :: above, groups, ?_, ?_, hfirst, hbelow⟩
      · rw [hrest]
        rfl
      · exact List.forall_mem_cons.2 ⟨h, habove⟩

theorem Grouping.map_first {rows above : List Row} {groups : List RowGroup}
    (h : Grouping rows above groups) :
    groups.map RowGroup.first = rows.filter (·.OpensStatement) := by
  obtain ⟨rfl, habove, hfirst, hbelow⟩ := h
  have hgroup (group) (hgroup : group ∈ groups) :
      group.rows.filter (·.OpensStatement) = [group.first] := by
    rw [RowGroup.rows, List.filter_cons_of_pos (by simpa using hfirst group hgroup),
      List.filter_eq_nil_iff.2 (by simpa using hbelow group hgroup)]
  rw [List.filter_append, List.filter_eq_nil_iff.2 (by simpa using habove), List.nil_append,
    List.filter_flatMap, List.flatMap_congr hgroup, List.map_eq_flatMap]

namespace Statement

variable {style : Continuation}

theorem foldl_extend (statement : Statement) (rows : List Row) :
    rows.foldl extend statement = ⟨statement.cells ++ rows.flatMap Row.continuation,
      rows.foldl (fun span row => span.cover row.span) statement.span⟩ := by
  induction rows generalizing statement with
  | nil => simp
  | cons row rows ih => simp [ih, extend]

theorem fold_of_opensStatement {row : Row} (h : row.OpensStatement) (current : Option Statement)
    (rest : List Row) :
    fold style current (row :: rest) = current.toList ++ fold style (some (ofRow row)) rest := by
  obtain ⟨hempty, hmarker⟩ := row.opensStatement_iff.1 h
  have hcontinues : ¬ row.continues style = true := fun hcontinues => by
    simp [row.hasMarker_of_continues hcontinues] at hmarker
  simp [fold, hempty, hmarker, hcontinues]

/-- Of the rows below, those that continue the statement extend it, and the others are
dropped. -/
theorem fold_below {below : List Row} (h : ∀ row ∈ below, ¬ row.OpensStatement)
    (current : Option Statement) (rest : List Row) :
    fold style current (below ++ rest) =
      fold style (current.map fun statement =>
        (below.filter (·.continues style)).foldl extend statement) rest := by
  induction below generalizing current with
  | nil => simp
  | cons row below ih =>
    rw [List.forall_mem_cons] at h
    rw [List.cons_append, fold]
    cases hempty : row.isEmpty with
    | true => simp [ih h.2, Row.continues_of_isEmpty hempty]
    | false =>
      have hmarker : row.hasMarker = true := by
        simpa [row.opensStatement_iff, hempty] using h.1
      cases hcontinues : row.continues style with
      | true => simp [ih h.2, hcontinues, Function.comp_def]
      | false => simp [ih h.2, hcontinues, hmarker]

theorem fold_groups {groups : List RowGroup} (hfirst : ∀ group ∈ groups, group.first.OpensStatement)
    (hbelow : ∀ group ∈ groups, ∀ row ∈ group.below, ¬ row.OpensStatement)
    (current : Option Statement) :
    fold style current (groups.flatMap RowGroup.rows) =
      current.toList ++ groups.map (RowGroup.statement style) := by
  induction groups generalizing current with
  | nil => simp [fold]
  | cons group groups ih =>
    rw [List.forall_mem_cons] at hfirst hbelow
    rw [List.flatMap_cons, RowGroup.rows, List.cons_append, fold_of_opensStatement hfirst.1,
      fold_below hbelow.1, ih hfirst.2 hbelow.2, Option.map_some, foldl_extend]
    rfl

/-- Rows are read group by group: every row whose first filled cell is no marker opens a
statement, which takes in the cells behind the markers of the rows that continue it down to the
next such row. -/
theorem ofRows_eq_groups (rows : List Row) :
    ∃ above groups, Grouping rows above groups ∧
      groups.map RowGroup.first = rows.filter (·.OpensStatement) ∧
      (∀ style, ofRows style rows = groups.map (RowGroup.statement style)) ∧
      ∀ (row : Row) style others, row.continues style = true ∧ row.continuation = others ↔
        row.ContinuesWith style others := by
  obtain ⟨above, groups, h⟩ := exists_grouping rows
  refine ⟨above, groups, h, h.map_first, fun style => ?_, Row.continues_and_continuation_iff⟩
  rw [ofRows, h.complete, fold_below h.above, Option.map_none, fold_groups h.first h.below]
  rfl

end Statement

end SuiteIndex
