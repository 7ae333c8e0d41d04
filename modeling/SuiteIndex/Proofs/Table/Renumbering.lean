import Mathlib.Data.List.TakeWhile
import Mathlib.Order.Monotone.Defs
import SuiteIndex.Proofs.Position
import SuiteIndex.Proofs.Table.Grouping
import SuiteIndex.Table.Segment

/-! # Renumbering lines

Lines may be renumbered as long as their order stays the same. Columns do not change. What
is read from a row depends on the contents of its cells alone, so cells, rows, tables and
statements are read from renumbered lines as they are read from the old ones, in their new
places. Rows that are empty count for nothing at all.
-/

namespace SuiteIndex

namespace Position

/-- The position in a text whose lines are renumbered. -/
def renumber (g : Nat → Nat) (p : Position) : Position :=
  ⟨g p.line, p.column⟩

theorem notAfter_renumber {g : Nat → Nat} (hg : StrictMono g) (p q : Position) :
    (p.renumber g).notAfter (q.renumber g) = p.notAfter q := by
  rw [Bool.eq_iff_iff, notAfter_eq_true, notAfter_eq_true, le_iff, le_iff]
  simp only [renumber, hg.lt_iff_lt, hg.injective.eq_iff]

theorem earlier_renumber {g : Nat → Nat} (hg : StrictMono g) (p q : Position) :
    (p.renumber g).earlier (q.renumber g) = (p.earlier q).renumber g := by
  simp only [earlier, notAfter_renumber hg]
  split <;> rfl

theorem later_renumber {g : Nat → Nat} (hg : StrictMono g) (p q : Position) :
    (p.renumber g).later (q.renumber g) = (p.later q).renumber g := by
  simp only [later, notAfter_renumber hg]
  split <;> rfl

end Position

namespace Span

def renumber (g : Nat → Nat) (span : Span) : Span :=
  ⟨span.start.renumber g, span.stop.renumber g⟩

theorem cover_renumber {g : Nat → Nat} (hg : StrictMono g) (a b : Span) :
    (a.renumber g).cover (b.renumber g) = (a.cover b).renumber g := by
  simp only [cover, renumber, Position.earlier_renumber hg, Position.later_renumber hg]

end Span

namespace Location

def renumber (g : Nat → Nat) : Location → Location
  | parsed span => parsed (span.renumber g)
  | synthetic => synthetic

theorem cover_renumber {g : Nat → Nat} (hg : StrictMono g) (a b : Location) :
    (a.renumber g).cover (b.renumber g) = (a.cover b).renumber g := by
  cases a with
  | parsed a =>
    cases b with
    | parsed b => exact congrArg parsed (Span.cover_renumber hg a b)
    | synthetic => rfl
  | synthetic => rfl

end Location

namespace Cell

variable (g : Nat → Nat)

def renumber (cell : Cell) : Cell :=
  ⟨cell.content, cell.span.renumber g⟩

@[simp] theorem content_renumber (cell : Cell) : (cell.renumber g).content = cell.content := rfl

@[simp] theorem isEmpty_renumber (cell : Cell) : (cell.renumber g).isEmpty = cell.isEmpty := rfl

@[simp] theorem isEmpty_comp_renumber : isEmpty ∘ renumber g = isEmpty := rfl

@[simp] theorem isMarker_renumber (cell : Cell) : (cell.renumber g).isMarker = cell.isMarker := rfl

@[simp] theorem location_renumber (cell : Cell) :
    (cell.renumber g).location = cell.location.renumber g := rfl

@[simp] theorem part_renumber (cell : Cell) (first last : Nat) :
    (cell.renumber g).part first last = (cell.part first last).renumber g := rfl

theorem range?_renumber (cells : List Cell) :
    range? (cells.map (renumber g)) = (range? cells).map (Span.renumber g) := by
  unfold range?
  rw [List.head?_map, List.getLast?_map]
  cases cells.head? <;> cases cells.getLast? <;> rfl

theorem reach_renumber (first : Cell) (rest : List Cell) :
    reach (first.renumber g) (rest.map (renumber g)) = (reach first rest).renumber g := by
  unfold reach
  rw [List.getLast?_map]
  cases rest.getLast? <;> rfl

theorem trimEmpty_renumber (cells : List Cell) :
    trimEmpty (cells.map (renumber g)) = (trimEmpty cells).map (renumber g) := by
  simp [trimEmpty, List.dropWhile_map, ← List.map_reverse]

end Cell

namespace Row

variable (g : Nat → Nat)

def renumber (row : Row) : Row :=
  ⟨row.cells.map (Cell.renumber g), row.span.renumber g⟩

@[simp] theorem span_renumber (row : Row) : (row.renumber g).span = row.span.renumber g := rfl

theorem ofCells_renumber (line : Nat) (cells : List Cell) :
    ofCells (g line) (cells.map (Cell.renumber g)) = (ofCells line cells).renumber g := by
  simp only [ofCells, renumber, Cell.range?_renumber]
  cases Cell.range? cells <;> rfl

@[simp] theorem isEmpty_renumber (row : Row) : (row.renumber g).isEmpty = row.isEmpty := by
  simp [isEmpty, renumber]

theorem firstFilled?_renumber (row : Row) : (row.renumber g).firstFilled? =
    row.firstFilled?.map fun (index, cell) => (index, cell.renumber g) := by
  simp only [firstFilled?, renumber, List.dropWhile_map, List.takeWhile_map,
    Cell.isEmpty_comp_renumber, List.length_map]
  cases row.cells.dropWhile Cell.isEmpty <;> rfl

@[simp] theorem isHeader_renumber (row : Row) : (row.renumber g).isHeader = row.isHeader := by
  simp only [isHeader, firstFilled?_renumber]
  cases row.firstFilled? <;> rfl

@[simp] theorem hasMarker_renumber (row : Row) : (row.renumber g).hasMarker = row.hasMarker := by
  simp only [hasMarker, firstFilled?_renumber]
  cases row.firstFilled? <;> rfl

@[simp] theorem continues_renumber (row : Row) (style : Continuation) :
    (row.renumber g).continues style = row.continues style := by
  cases style with
  | firstCell =>
    simp only [continues, firstFilled?_renumber]
    rcases row.firstFilled? with - | ⟨- | index, cell⟩ <;> rfl
  | indented =>
    simp only [continues, firstFilled?_renumber]
    cases row.firstFilled? <;> rfl

@[simp] theorem continuation_renumber (row : Row) :
    (row.renumber g).continuation = row.continuation.map (Cell.renumber g) := by
  simp only [continuation, renumber, List.dropWhile_map, Cell.isEmpty_comp_renumber]
  cases row.cells.dropWhile Cell.isEmpty with
  | nil => rfl
  | cons cell rest =>
    by_cases hcell : cell.isMarker = true <;> simp [hcell]

theorem isHeader_of_isEmpty {row : Row} (h : row.isEmpty = true) : row.isHeader = false := by
  simp [isHeader, firstFilled?_of_isEmpty h]

end Row

namespace Statement

variable {g : Nat → Nat}

def renumber (g : Nat → Nat) (statement : Statement) : Statement :=
  ⟨statement.cells.map (Cell.renumber g), statement.span.renumber g⟩

@[simp] theorem startsFilled_renumber (statement : Statement) :
    (statement.renumber g).startsFilled = statement.startsFilled := by
  simp only [startsFilled, renumber]
  cases statement.cells <;> rfl

@[simp] theorem filled_renumber (statement : Statement) :
    (statement.renumber g).filled = statement.filled.map (Cell.renumber g) := by
  simp [filled, renumber, List.filter_map, Function.comp_def]

theorem extend_renumber (hg : StrictMono g) (statement : Statement) (row : Row) :
    (statement.renumber g).extend (row.renumber g) = (statement.extend row).renumber g := by
  simp only [extend, renumber, Row.continuation_renumber, Row.span_renumber,
    Span.cover_renumber hg, List.map_append]

theorem fold_renumber (hg : StrictMono g) (style : Continuation) (current : Option Statement)
    (rows : List Row) :
    fold style (current.map (renumber g)) (rows.map (Row.renumber g)) =
      (fold style current rows).map (renumber g) := by
  induction rows generalizing current with
  | nil => cases current <;> rfl
  | cons row rest ih =>
    have hextend : (current.map (renumber g)).map (·.extend (row.renumber g)) =
        (current.map (·.extend row)).map (renumber g) := by
      cases current with
      | none => rfl
      | some statement => exact congrArg some (extend_renumber hg statement row)
    simp only [List.map_cons, fold, Row.isEmpty_renumber, Row.continues_renumber,
      Row.hasMarker_renumber]
    split
    · exact ih current
    · split
      · rw [hextend, ih]
      · split
        · exact ih current
        · rw [List.map_append]
          congr 1
          · cases current <;> rfl
          · exact ih (some (ofRow row))

theorem ofRows_renumber (hg : StrictMono g) (style : Continuation) (rows : List Row) :
    ofRows style (rows.map (Row.renumber g)) = (ofRows style rows).map (renumber g) :=
  fold_renumber hg style none rows

theorem fold_filled (style : Continuation) (current : Option Statement) (rows : List Row) :
    fold style current (rows.filter (!·.isEmpty)) = fold style current rows := by
  induction rows generalizing current with
  | nil => rfl
  | cons row rest ih =>
    cases hrow : row.isEmpty with
    | true => simp [fold, hrow, ih]
    | false => simp [fold, hrow, ih]

theorem ofRows_filled (style : Continuation) (rows : List Row) :
    ofRows style (rows.filter (!·.isEmpty)) = ofRows style rows :=
  fold_filled style none rows

end Statement

namespace Table

variable {g : Nat → Nat}

def renumber (g : Nat → Nat) (table : Table) : Table :=
  ⟨table.name, table.header.renumber g, table.rows.map (Row.renumber g)⟩

@[simp] theorem nameOf_renumber (header : Row) : nameOf (header.renumber g) = nameOf header := by
  simp only [nameOf, Row.firstFilled?_renumber]
  cases header.firstFilled? <;> rfl

theorem span_renumber (hg : StrictMono g) (table : Table) :
    (table.renumber g).span = table.span.renumber g := by
  have hlast : (table.rows.map (Row.renumber g)).reverse.find? (!·.isEmpty) =
      (table.rows.reverse.find? (!·.isEmpty)).map (Row.renumber g) := by
    have hfilled : (!·.isEmpty) ∘ Row.renumber g = fun row => !row.isEmpty := by
      funext row
      rw [Function.comp_apply, Row.isEmpty_renumber]
    rw [← List.map_reverse, List.find?_map, hfilled]
  simp only [span, renumber, hlast]
  cases table.rows.reverse.find? (!·.isEmpty) with
  | none => rfl
  | some last => exact Span.cover_renumber hg _ _

theorem collect_renumber (rows : List Row) :
    collect (rows.map (Row.renumber g)) =
      ((collect rows).1.map (Row.renumber g), (collect rows).2.map (renumber g)) := by
  induction rows with
  | nil => rfl
  | cons row rest ih =>
    simp only [List.map_cons, collect, ih, Row.isHeader_renumber, nameOf_renumber]
    split <;> rfl

theorem ofRows_renumber (rows : List Row) :
    ofRows (rows.map (Row.renumber g)) = (ofRows rows).map (renumber g) :=
  congrArg Prod.snd (collect_renumber rows)

def condense (table : Table) : Table :=
  { table with rows := table.rows.filter (!·.isEmpty) }

@[simp] theorem span_condense (table : Table) : table.condense.span = table.span := by
  have hlast : (table.rows.filter (!·.isEmpty)).reverse.find? (!·.isEmpty) =
      table.rows.reverse.find? (!·.isEmpty) := by
    rw [← List.filter_reverse, List.find?_filter]
    simp
  simp only [span, condense, hlast]

theorem collect_filled (rows : List Row) :
    collect (rows.filter (!·.isEmpty)) =
      ((collect rows).1.filter (!·.isEmpty), (collect rows).2.map condense) := by
  induction rows with
  | nil => rfl
  | cons row rest ih =>
    cases hrow : row.isEmpty with
    | true => simp [collect, hrow, ih, Row.isHeader_of_isEmpty hrow]
    | false =>
      rw [List.filter_cons_of_pos (by simp [hrow])]
      simp only [collect, ih]
      split
      · rfl
      · simp [hrow]

theorem ofRows_filled (rows : List Row) :
    ofRows (rows.filter (!·.isEmpty)) = (ofRows rows).map condense :=
  congrArg Prod.snd (collect_filled rows)

end Table

namespace Segment

variable (g : Nat → Nat)

theorem cell_renumber (line column : Nat) (stretch : Text) :
    cell (g line) column stretch = (cell line column stretch).renumber g := by
  simp only [cell]
  split <;> rfl

theorem cells_renumber (pipeForm : Bool) (line column : Nat) (t : Text) :
    cells pipeForm (g line) column t = (cells pipeForm line column t).map (Cell.renumber g) := by
  fun_induction cells pipeForm line column t with
  | case1 => simp [cells]
  | case2 column c t first rest ih => rw [cells, List.map_cons, ← ih, ← cell_renumber]

theorem line_renumber (number : Nat) (t : Text) :
    line (g number) t = (line number t).map (Cell.renumber g) := by
  unfold line
  dsimp only
  split <;> exact cells_renumber g _ _ _ _

end Segment

theorem Row.read_renumber (g : Nat → Nat) (number : Nat) (line : Text) :
    Row.read (g number) line = (Row.read number line).renumber g := by
  rw [Row.read, Segment.line_renumber, Row.ofCells_renumber]
  rfl

theorem Row.readFrom_append (number : Nat) (front back : List Text) :
    Row.readFrom number (front ++ back) =
      Row.readFrom number front ++ Row.readFrom (number + front.length) back := by
  induction front generalizing number with
  | nil => rfl
  | cons line front ih =>
    rw [List.cons_append, readFrom, ih, readFrom, List.length_cons, List.cons_append,
      Nat.add_assoc, Nat.add_comm 1]

end SuiteIndex
