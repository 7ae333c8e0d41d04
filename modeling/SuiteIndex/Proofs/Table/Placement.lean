import SuiteIndex.Proofs.Position.Cover
import SuiteIndex.Proofs.Table.Line
import SuiteIndex.Table.Statement

/-! # Where cells, rows and statements stand

Cells follow one another in reading order inside their row, rows inside their table. So
the span of a table encloses its rows, a statement the cells of all its rows, and the
range from one cell to another every cell between them.
-/

namespace SuiteIndex

namespace Cell

/-- The span of a cell is as wide as its content. -/
def Fits (cell : Cell) : Prop :=
  cell.span = cell.part 0 cell.content.length

theorem part_ordered (cell : Cell) {first last : Nat} (h : first ≤ last) :
    (cell.part first last).start ≤ (cell.part first last).stop := by
  simp [part, Span.onLine, Position.le_iff, h]

theorem Fits.ordered {cell : Cell} (h : cell.Fits) : cell.span.start ≤ cell.span.stop := by
  rw [Fits] at h
  rw [h]
  exact cell.part_ordered (Nat.zero_le _)

theorem Fits.part_le {cell : Cell} (h : cell.Fits) {last : Nat} (hlast : last ≤ cell.content.length)
    (first : Nat) : cell.part first last ≤ cell.span := by
  have hstop : cell.span.stop = (cell.part 0 cell.content.length).stop := congrArg Span.stop h
  simp [Span.le_iff, hstop, part, Span.onLine, Position.le_iff, hlast]

/-- The cells stand one behind the other inside a span, and no two of them touch. -/
structure Inside (outer : Span) (cells : List Cell) : Prop where
  fits : ∀ cell ∈ cells, cell.Fits
  ordered : cells.Pairwise fun a b => a.span.stop < b.span.start
  within : ∀ cell ∈ cells, cell.span ≤ outer

namespace Inside

variable {outer inner span : Span} {cells left right : List Cell}

theorem nil (outer : Span) : Inside outer [] := by
  constructor <;> simp

theorem sublist (h : Inside outer cells) (hsub : left.Sublist cells) : Inside outer left where
  fits cell hcell := h.fits cell (hsub.subset hcell)
  ordered := h.ordered.sublist hsub
  within cell hcell := h.within cell (hsub.subset hcell)

theorem mono (h : Inside inner cells) (hle : inner ≤ outer) : Inside outer cells where
  fits := h.fits
  ordered := h.ordered
  within cell hcell := (h.within cell hcell).trans hle

theorem append (hleft : Inside outer left) (hright : Inside outer right)
    (hcut : ∀ a ∈ left, ∀ b ∈ right, a.span.stop < b.span.start) :
    Inside outer (left ++ right) := by
  constructor
  · intro cell hcell
    rcases List.mem_append.1 hcell with hcell | hcell
    · exact hleft.fits cell hcell
    · exact hright.fits cell hcell
  · exact List.pairwise_append.2 ⟨hleft.ordered, hright.ordered, hcut⟩
  · intro cell hcell
    rcases List.mem_append.1 hcell with hcell | hcell
    · exact hleft.within cell hcell
    · exact hright.within cell hcell

theorem start_le {first cell : Cell} {rest : List Cell} (h : Inside outer (first :: rest))
    (hcell : cell ∈ first :: rest) : first.span.start ≤ cell.span.start := by
  rcases List.mem_cons.1 hcell with rfl | hcell
  · exact le_rfl
  · have hfirst := (h.fits first List.mem_cons_self).ordered
    exact hfirst.trans (List.rel_of_pairwise_cons h.ordered hcell).le

theorem le_stop {last cell : Cell} (h : Inside outer (left ++ [last]))
    (hcell : cell ∈ left ++ [last]) : cell.span.stop ≤ last.span.stop := by
  rcases List.mem_append.1 hcell with hcell | hcell
  · have hlast := (h.fits last (by simp)).ordered
    exact ((List.pairwise_append.1 h.ordered).2.2 cell hcell last (by simp)).le.trans hlast
  · rw [List.mem_singleton.1 hcell]

theorem range (h : Inside outer cells) (hspan : range? cells = some span) :
    span.start ≤ span.stop ∧ span ≤ outer ∧ Inside span cells := by
  cases cells with
  | nil => cases hspan
  | cons first rest =>
    obtain ⟨left, last, hcells⟩ := (List.eq_nil_or_concat (first :: rest)).resolve_left (by simp)
    rw [List.concat_eq_append] at hcells
    have hends : span = ⟨first.span.start, last.span.stop⟩ := by
      have hlast : (first :: rest).getLast? = some last := by simp [hcells]
      simpa [range?, hlast] using hspan.symm
    have hfirst := h.within first List.mem_cons_self
    have hstop : ∀ cell ∈ first :: rest, cell.span.stop ≤ last.span.stop := by
      rw [hcells] at h ⊢
      exact fun cell hcell => h.le_stop hcell
    have hlast := h.within last (by simp [hcells])
    subst hends
    refine ⟨?_, ⟨hfirst.1, hlast.2⟩, h.fits, h.ordered, fun cell hcell => ?_⟩
    · exact (h.fits first List.mem_cons_self).ordered.trans (hstop first List.mem_cons_self)
    · exact ⟨h.start_le hcell, hstop cell hcell⟩

end Inside

theorem range?_cons (first : Cell) (rest : List Cell) :
    range? (first :: rest) = some ⟨first.span.start, (rest.getLast?.getD first).span.stop⟩ := by
  simp [range?, List.getLast?_cons]

end Cell

namespace Row

/-- The span of a row is around its cells. -/
structure Sound (row : Row) : Prop where
  ordered : row.span.start ≤ row.span.stop
  inside : Cell.Inside row.span row.cells

theorem inside_line (number : Nat) (line : Text) :
    Cell.Inside (.onLine number 0 line.length) (Segment.line number line) := by
  have hshows := Segment.shows_line number line
  constructor
  · intro cell hcell
    obtain ⟨hstart, hstop⟩ := hshows.same_line cell hcell
    obtain ⟨hordered, hlength⟩ := hshows.columns cell hcell
    have hcontent := congrArg List.length (hshows.content cell hcell)
    rw [List.length_drop, List.length_take, Nat.min_eq_left hlength] at hcontent
    obtain ⟨content, ⟨startLine, startColumn⟩, ⟨stopLine, stopColumn⟩⟩ := cell
    simp only at hstart hstop hordered hcontent
    simp only [Cell.Fits, Cell.part, Span.onLine, ← hcontent, hstart, hstop, Nat.add_zero,
      Nat.add_sub_cancel' hordered]
  · refine List.Pairwise.imp_of_mem (fun {a b} ha hb hlt => ?_) hshows.apart
    have hline := (hshows.same_line a ha).2.trans (hshows.same_line b hb).1.symm
    exact Position.lt_of_column_lt hline hlt
  · intro cell hcell
    obtain ⟨hstart, hstop⟩ := hshows.same_line cell hcell
    have hlength := (hshows.columns cell hcell).2
    simp [Span.le_iff, Span.onLine, Position.le_iff, hstart, hstop, hlength]

theorem range?_eq_none {cells : List Cell} (h : Cell.range? cells = none) : cells = [] := by
  cases cells with
  | nil => rfl
  | cons first rest => simp [Cell.range?_cons] at h

theorem span_read_le (number : Nat) (line : Text) :
    (Row.read number line).span ≤ .onLine number 0 line.length := by
  simp only [Row.read, Row.ofCells]
  cases hspan : Cell.range? (Segment.line number line) with
  | none => simp [Span.le_iff, Span.onLine, Span.point, Position.le_iff]
  | some span => exact ((inside_line number line).range hspan).2.1

theorem sound_read (number : Nat) (line : Text) : (Row.read number line).Sound := by
  simp only [Row.read, Row.ofCells]
  cases hspan : Cell.range? (Segment.line number line) with
  | none =>
    rw [range?_eq_none hspan]
    exact ⟨le_rfl, .nil _⟩
  | some span =>
    obtain ⟨hordered, -, hinside⟩ := (inside_line number line).range hspan
    exact ⟨hordered, hinside⟩

theorem sound_of_mem_readFrom {number : Nat} {lines : List Text} {row : Row}
    (h : row ∈ readFrom number lines) : row.Sound := by
  obtain ⟨i, line, -, rfl⟩ := exists_line_of_mem_readFrom h
  exact sound_read (number + i) line

theorem pairwise_readFrom (number : Nat) (lines : List Text) :
    (readFrom number lines).Pairwise fun a b => a.span.stop < b.span.start := by
  induction lines generalizing number with
  | nil => exact List.Pairwise.nil
  | cons line lines ih =>
    apply List.Pairwise.cons
    · intro row hrow
      obtain ⟨i, other, -, rfl⟩ := exists_line_of_mem_readFrom hrow
      have hstop := (span_read_le number line).2
      have hstart := (span_read_le (number + 1 + i) other).1
      have hlines : number < number + 1 + i := by omega
      exact hstop.trans_lt ((Position.lt_of_line_lt hlines).trans_le hstart)
    · exact ih (number + 1)

end Row

namespace Table

/-- The rows of a table stand below its header, one behind the other. -/
structure Sound (table : Table) : Prop where
  rows : ∀ row ∈ table.header :: table.rows, row.Sound
  ordered : (table.header :: table.rows).Pairwise fun a b => a.span.stop < b.span.start

theorem sound_of_mem_read {text : Text} {table : Table} (h : table ∈ read text) : table.Sound where
  rows _ hrow := Row.sound_of_mem_readFrom ((sublist_of_mem_ofRows h).subset hrow)
  ordered := (Row.pairwise_readFrom 0 (Text.lines text)).sublist (sublist_of_mem_ofRows h)

namespace Sound

variable {table : Table}

theorem header_le (h : table.Sound) {row : Row} (hrow : row ∈ table.rows) :
    table.header.span.start ≤ row.span.start :=
  (h.rows table.header List.mem_cons_self).ordered.trans
    (List.rel_of_pairwise_cons h.ordered hrow).le

theorem span_ordered (h : table.Sound) : table.span.start ≤ table.span.stop := by
  have hheader := (h.rows table.header List.mem_cons_self).ordered
  unfold Table.span
  split
  · exact Span.start_le_stop_of_le (Span.le_cover_left _ _) hheader
  · exact hheader

theorem row_le (h : table.Sound) {row : Row} (hrow : row ∈ table.rows)
    (hfilled : row.isEmpty = false) : row.span ≤ table.span := by
  unfold Table.span
  split
  · rename_i last hlast
    obtain ⟨-, behind, before, hrows, hempty⟩ := List.find?_eq_some_iff_append.1 hlast
    have hsplit : table.rows = before.reverse ++ last :: behind.reverse := by
      simpa using congrArg List.reverse hrows
    refine ⟨(Span.le_cover_left _ _).1.trans (h.header_le hrow), ?_⟩
    refine le_trans ?_ (Span.le_cover_right _ _).2
    have hordered := (List.pairwise_cons.1 h.ordered).2
    rw [hsplit] at hordered hrow
    rcases List.mem_append.1 hrow with hbefore | hrow
    · have hstart := (List.pairwise_append.1 hordered).2.2 row hbefore last List.mem_cons_self
      have hmem : last ∈ table.header :: table.rows := by simp [hsplit]
      exact hstart.le.trans (h.rows last hmem).ordered
    · rcases List.mem_cons.1 hrow with rfl | hbehind
      · exact le_rfl
      · have hno := hempty row (List.mem_reverse.1 hbehind)
        simp [hfilled] at hno
  · rename_i hnone
    have hno := List.find?_eq_none.1 hnone row (List.mem_reverse.2 hrow)
    simp [hfilled] at hno

end Sound

end Table

namespace Row

theorem continuation_sublist (row : Row) : row.continuation.Sublist row.cells := by
  have hdrop := List.dropWhile_sublist (l := row.cells) Cell.isEmpty
  unfold continuation
  split
  · rename_i cell rest hcells
    rw [hcells] at hdrop
    split
    · exact (List.sublist_cons_self cell rest).trans hdrop
    · exact List.nil_sublist _
  · exact List.nil_sublist _

end Row

namespace Statement

/-- A statement stands inside `outer`, and its cells inside its own span. -/
structure Placed (outer : Span) (statement : Statement) : Prop where
  ordered : statement.span.start ≤ statement.span.stop
  within : statement.span ≤ outer
  inside : Cell.Inside statement.span statement.cells

theorem placed_ofRow {outer : Span} {row : Row} (h : row.Sound) (hle : row.span ≤ outer) :
    Placed outer (ofRow row) :=
  ⟨h.ordered, hle, h.inside⟩

theorem Placed.filled {outer : Span} {statement : Statement} (h : Placed outer statement) :
    Cell.Inside statement.span statement.filled := by
  apply h.inside.sublist
  exact List.filter_sublist

theorem Placed.extend {outer : Span} {statement : Statement} {row : Row}
    (h : Placed outer statement) (hrow : row.Sound) (hle : row.span ≤ outer)
    (hcut : statement.span.stop < row.span.start) : Placed outer (statement.extend row) := by
  have hleft := Span.le_cover_left statement.span row.span
  have hright := Span.le_cover_right statement.span row.span
  constructor
  · exact Span.start_le_stop_of_le hleft h.ordered
  · exact Span.cover_le_iff.2 ⟨h.within, hle⟩
  · have hcontinuation := hrow.inside.sublist row.continuation_sublist
    apply (h.inside.mono hleft).append (hcontinuation.mono hright)
    intro a ha b hb
    have hstop := (h.inside.within a ha).2
    have hstart := (hcontinuation.within b hb).1
    exact hstop.trans_lt (hcut.trans_le hstart)

/-- The rows below have not been read when a statement is extended, so they all stand
behind it. -/
theorem placed_of_mem_fold {outer : Span} (style : Continuation) {current : Option Statement}
    {rows : List Row} (hcurrent : ∀ s ∈ current, Placed outer s) (hrows : ∀ row ∈ rows, row.Sound)
    (hle : ∀ row ∈ rows, row.isEmpty = false → row.span ≤ outer)
    (hordered : rows.Pairwise fun a b => a.span.stop < b.span.start)
    (hcut : ∀ s ∈ current, ∀ row ∈ rows, s.span.stop < row.span.start) {statement : Statement}
    (h : statement ∈ fold style current rows) : Placed outer statement := by
  induction rows generalizing current with
  | nil => exact hcurrent statement (by simpa [fold] using h)
  | cons row rows ih =>
    obtain ⟨hfirst, hordered⟩ := List.pairwise_cons.1 hordered
    rw [List.forall_mem_cons] at hrows hle
    have hbelow (s) (hs : s ∈ current) (other) (hother : other ∈ rows) :
        s.span.stop < other.span.start := hcut s hs other (List.mem_cons_of_mem _ hother)
    simp only [fold] at h
    split at h
    · exact ih hcurrent hrows.2 hle.2 hordered hbelow h
    · rename_i hempty
      have hrow := hle.1 (by simpa using hempty)
      split at h
      · refine ih ?_ hrows.2 hle.2 hordered ?_ h
        · intro s hs
          obtain ⟨before, hbefore, rfl⟩ := Option.map_eq_some_iff.1 hs
          have hstop := hcut before hbefore row List.mem_cons_self
          exact (hcurrent before hbefore).extend hrows.1 hrow hstop
        · intro s hs other hother
          obtain ⟨before, hbefore, rfl⟩ := Option.map_eq_some_iff.1 hs
          simp only [extend, Span.stop_cover_lt_iff]
          exact ⟨hbelow before hbefore other hother, hfirst other hother⟩
      · split at h
        · exact ih hcurrent hrows.2 hle.2 hordered hbelow h
        · rcases List.mem_append.1 h with h | h
          · exact hcurrent statement (by simpa using h)
          · refine ih ?_ hrows.2 hle.2 hordered ?_ h
            · intro s hs
              obtain rfl := Option.some.inj hs
              exact placed_ofRow hrows.1 hrow
            · intro s hs other hother
              obtain rfl := Option.some.inj hs
              exact hfirst other hother

theorem placed_of_mem_ofRows {table : Table} (htable : table.Sound) {style : Continuation}
    {statement : Statement} (h : statement ∈ ofRows style table.rows) :
    Placed table.span statement := by
  have hordered := (List.pairwise_cons.1 htable.ordered).2
  have hrows : ∀ row ∈ table.rows, row.Sound :=
    fun row hrow => htable.rows row (List.mem_cons_of_mem _ hrow)
  have hwithin : ∀ row ∈ table.rows, row.isEmpty = false → row.span ≤ table.span :=
    fun row hrow hfilled => htable.row_le hrow hfilled
  exact placed_of_mem_fold style (by simp) hrows hwithin hordered (by simp) h

theorem start_of_mem_fold {style : Continuation} {limit : Position} {current : Option Statement}
    {rows : List Row} (hcurrent : ∀ s ∈ current, limit < s.span.start)
    (hrows : ∀ row ∈ rows, limit < row.span.start) {statement : Statement}
    (h : statement ∈ fold style current rows) : limit < statement.span.start := by
  induction rows generalizing current with
  | nil => exact hcurrent statement (by simpa [fold] using h)
  | cons row rows ih =>
    rw [List.forall_mem_cons] at hrows
    simp only [fold] at h
    split at h
    · exact ih hcurrent hrows.2 h
    · split at h
      · refine ih (fun s hs => ?_) hrows.2 h
        obtain ⟨before, hbefore, rfl⟩ := Option.map_eq_some_iff.1 hs
        simp only [extend, Span.lt_start_cover_iff]
        exact ⟨hcurrent before hbefore, hrows.1⟩
      · split at h
        · exact ih hcurrent hrows.2 h
        · rcases List.mem_append.1 h with h | h
          · exact hcurrent statement (by simpa using h)
          · refine ih (fun s hs => ?_) hrows.2 h
            obtain rfl := Option.some.inj hs
            exact hrows.1

/-- A statement ends before the next one starts, for it only takes in rows above that. -/
theorem pairwise_fold (style : Continuation) {current : Option Statement} {rows : List Row}
    (hordered : rows.Pairwise fun a b => a.span.stop < b.span.start)
    (hcut : ∀ s ∈ current, ∀ row ∈ rows, s.span.stop < row.span.start) :
    (fold style current rows).Pairwise fun a b => a.span.stop < b.span.start := by
  induction rows generalizing current with
  | nil => cases current <;> simp [fold]
  | cons row rows ih =>
    obtain ⟨hfirst, hordered⟩ := List.pairwise_cons.1 hordered
    have hbelow (s) (hs : s ∈ current) (other) (hother : other ∈ rows) :
        s.span.stop < other.span.start := hcut s hs other (List.mem_cons_of_mem _ hother)
    have hrow (s) (hs : s ∈ some (ofRow row)) (other) (hother : other ∈ rows) :
        s.span.stop < other.span.start := by
      obtain rfl := Option.some.inj hs
      exact hfirst other hother
    simp only [fold]
    split
    · exact ih hordered hbelow
    · split
      · refine ih hordered fun s hs other hother => ?_
        obtain ⟨before, hbefore, rfl⟩ := Option.map_eq_some_iff.1 hs
        simp only [extend, Span.stop_cover_lt_iff]
        exact ⟨hbelow before hbefore other hother, hfirst other hother⟩
      · split
        · exact ih hordered hbelow
        · refine List.pairwise_append.2 ⟨by cases current <;> simp, ih hordered hrow, ?_⟩
          intro before hbefore statement hstatement
          have hbefore := Option.mem_toList.1 hbefore
          refine start_of_mem_fold (fun s hs => ?_) (hbelow before hbefore) hstatement
          obtain rfl := Option.some.inj hs
          exact hcut before hbefore row List.mem_cons_self

theorem pairwise_ofRows {table : Table} (htable : table.Sound) (style : Continuation) :
    (ofRows style table.rows).Pairwise fun a b => a.span.stop < b.span.start :=
  pairwise_fold style (List.pairwise_cons.1 htable.ordered).2 (by simp)

end Statement

namespace Table

theorem exists_ends (table : Table) : ∃ last ∈ table.header :: table.rows,
    table.span = table.header.span.cover last.span := by
  unfold Table.span
  split
  · rename_i last hlast
    have hmem := List.mem_reverse.1 (List.mem_of_find?_eq_some hlast)
    exact ⟨last, List.mem_cons_of_mem _ hmem, rfl⟩
  · refine ⟨table.header, List.mem_cons_self, ?_⟩
    exact (sup_idem table.header.span).symm

theorem pairwise_read (text : Text) :
    (read text).Pairwise fun a b => a.span.stop < b.span.start := by
  have hrows := Row.pairwise_readFrom 0 (Text.lines text)
  rw [← collect_flatten (Row.readFrom 0 (Text.lines text)), List.pairwise_append,
    List.pairwise_flatMap] at hrows
  refine hrows.2.1.2.imp fun {a b} hcut => ?_
  obtain ⟨last, hlast, ha⟩ := a.exists_ends
  obtain ⟨other, hother, hb⟩ := b.exists_ends
  rw [ha, hb, Span.stop_cover_lt_iff, Span.lt_start_cover_iff, Span.lt_start_cover_iff]
  exact ⟨⟨hcut _ List.mem_cons_self _ List.mem_cons_self, hcut _ List.mem_cons_self _ hother⟩,
    hcut _ hlast _ List.mem_cons_self, hcut _ hlast _ hother⟩

end Table

end SuiteIndex
