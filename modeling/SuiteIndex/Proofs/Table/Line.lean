import SuiteIndex.Proofs.Table.Segment

/-! # Cells and the characters of their line

The cells of a line are exact: each stands in the columns it names, they do not touch,
and together they hold every visible character before the comment except the pipes that
open or close the row or separate two cells.
-/

namespace SuiteIndex

namespace Segment

/-- A comment can start here: a hash sign without a backslash in front. -/
def CommentAt (t : Text) (i : Nat) : Prop :=
  t[i]? = some '#' ∧ ∀ j, i = j + 1 → t[j]? ≠ some '\\'

/-- The body of a line is the part before its first comment. -/
structure Body (line body : Text) : Prop where
  start : body <+: line
  clear : ∀ i < body.length, ¬ CommentAt line i
  comment : body.length < line.length → CommentAt line body.length

/-- A comment can start here, given whether a backslash stands before the whole text. -/
def HashAt (escaped : Bool) (t : Text) (i : Nat) : Prop :=
  CommentAt t i ∧ (i = 0 → escaped = false)

theorem hashAt_succ (escaped : Bool) (c : Char) (t : Text) (i : Nat) :
    HashAt escaped (c :: t) (i + 1) ↔ HashAt (c = '\\') t i := by
  cases i with
  | zero => simp [HashAt, CommentAt, and_comm]
  | succ i => simp [HashAt, CommentAt]

theorem uncommented_isPrefix (escaped : Bool) (t : Text) : uncommented escaped t <+: t := by
  induction t generalizing escaped with
  | nil => exact List.prefix_rfl
  | cons c t ih =>
    simp only [uncommented]
    split
    · exact List.nil_prefix
    · exact List.cons_prefix_cons.2 ⟨rfl, ih _⟩

theorem not_hashAt_of_lt {escaped : Bool} {t : Text} {i : Nat}
    (hi : i < (uncommented escaped t).length) : ¬ HashAt escaped t i := by
  induction t generalizing escaped i with
  | nil => simp [uncommented] at hi
  | cons c t ih =>
    by_cases h : (c = '#' && !escaped) = true
    · simp [uncommented, h] at hi
    · cases i with
      | zero =>
        rintro ⟨⟨hhash, -⟩, hescaped⟩
        simp_all
      | succ i =>
        rw [uncommented, if_neg h, List.length_cons] at hi
        rw [hashAt_succ]
        exact ih (Nat.lt_of_succ_lt_succ hi)

theorem hashAt_length {escaped : Bool} {t : Text}
    (h : (uncommented escaped t).length < t.length) :
    HashAt escaped t (uncommented escaped t).length := by
  induction t generalizing escaped with
  | nil => simp at h
  | cons c t ih =>
    by_cases hc : (c = '#' && !escaped) = true
    · simp_all [uncommented, HashAt, CommentAt]
    · rw [uncommented, if_neg hc, List.length_cons] at h ⊢
      rw [hashAt_succ]
      exact ih (Nat.lt_of_succ_lt_succ h)

theorem body_uncommented (line : Text) : Body line (uncommented false line) where
  start := uncommented_isPrefix false line
  clear _ hi h := not_hashAt_of_lt hi ⟨h, fun _ => rfl⟩
  comment h := (hashAt_length h).1

/-- The first visible character is a pipe. -/
def inPipeForm (body : Text) : Bool :=
  (body.dropWhile Text.isBlank).head? = some '|'

/-- The pipe in front of the first cell. -/
def OpensAt (body : Text) (i : Nat) : Prop :=
  body[i]? = some '|' ∧ ∀ j < i, ∀ c, body[j]? = some c → Text.isBlank c = true

/-- The pipe behind the last cell: in pipe form the last visible character, with white
space or the opening pipe before it. -/
def ClosesAt (body : Text) (i : Nat) : Prop :=
  body[i]? = some '|' ∧ (∀ j, i < j → ∀ c, body[j]? = some c → Text.isBlank c = true) ∧
    ∃ k, OpensAt body k ∧ k < i ∧ (i = k + 1 ∨ ∃ c, body[i - 1]? = some c ∧ Text.isBlank c = true)

/-- A pipe that is taken as a delimiter opens the row, closes it or separates cells. -/
def DelimitsAt (body : Text) (i : Nat) : Prop :=
  OpensAt body i ∨ ClosesAt body i ∨ SeparatesAt (inPipeForm body) body i

theorem DelimitsAt.pipe {body : Text} {i : Nat} (h : DelimitsAt body i) : body[i]? = some '|' := by
  rcases h with h | h | h
  · exact h.1
  · exact h.1
  · exact h.pipe

/-- What closes a row of pipes behind its last cell. -/
inductive Closing : Text → Text → Prop where
  | none (region : Text) : Closing region []
  | pipe {region blanks : Text}
    (hregion : ∀ c, region.getLast? = some c → Text.isBlank c = true)
    (hblanks : ∀ c ∈ blanks, Text.isBlank c = true) : Closing region ('|' :: blanks)

theorem exists_closing (t : Text) :
    ∃ back, t = dropClosingPipe t ++ back ∧ Closing (dropClosingPipe t) back := by
  have hsplit : t.rdropWhile Text.isBlank ++ t.rtakeWhile Text.isBlank = t :=
    List.rdropWhile_append_rtakeWhile
  have hblanks : ∀ c ∈ t.rtakeWhile Text.isBlank, Text.isBlank c = true :=
    fun c hc => List.mem_rtakeWhile_imp hc
  rw [List.rdropWhile] at hsplit
  unfold dropClosingPipe
  split
  · rename_i hpipe
    rw [hpipe] at hsplit
    exact ⟨_, hsplit.symm, .pipe (by simp) hblanks⟩
  · rename_i c rest hpipe
    rw [hpipe] at hsplit
    split
    · rename_i hc
      refine ⟨'|' :: t.rtakeWhile Text.isBlank, ?_, .pipe ?_ hblanks⟩
      · conv_lhs => rw [← hsplit]
        simp
      · intro d hd
        obtain rfl : c = d := by simpa using hd
        exact hc
    · exact ⟨[], by simp, .none t⟩
  · exact ⟨[], by simp, .none t⟩

theorem dropClosingPipe_of_closing {region blanks : Text} (h : Closing region ('|' :: blanks)) :
    dropClosingPipe (region ++ '|' :: blanks) = region := by
  obtain - | ⟨hregion, hblanks⟩ := h
  have hbar : ¬ Text.isBlank '|' = true := by decide
  have hdrop : (region ++ '|' :: blanks).reverse.dropWhile Text.isBlank = '|' :: region.reverse := by
    rw [List.reverse_append, List.reverse_cons, List.append_assoc,
      List.dropWhile_append_of_pos (by simpa using hblanks), List.singleton_append,
      List.dropWhile_cons_of_neg hbar]
  rw [dropClosingPipe, hdrop]
  rcases List.eq_nil_or_concat region with rfl | ⟨front, last, rfl⟩
  · rfl
  · rw [List.concat_eq_append] at hregion ⊢
    simp [hregion last (by simp)]

/-- The part of a body that is cut into cells stands between its front and its back. -/
inductive Region : Text → Text → Text → Text → Prop where
  | plain {body : Text} (hform : inPipeForm body = false) : Region body [] body []
  | pipes {blanks region back : Text} (hblanks : ∀ c ∈ blanks, Text.isBlank c = true)
    (hback : Closing region back) :
    Region (blanks ++ ['|'] ++ region ++ back) (blanks ++ ['|']) region back

theorem inPipeForm_pipes {blanks : Text} (hblanks : ∀ c ∈ blanks, Text.isBlank c = true)
    (t : Text) : inPipeForm (blanks ++ '|' :: t) = true := by
  have hpipe : Text.isBlank '|' = false := by decide
  simp [inPipeForm, List.dropWhile_append_of_pos hblanks, hpipe]

theorem exists_region (number : Nat) (t : Text) :
    ∃ front region back, Region (uncommented false t) front region back ∧
      line number t =
        cells (inPipeForm (uncommented false t)) number front.length region := by
  generalize hbody : uncommented false t = body
  have hsplit : body.takeWhile Text.isBlank ++ body.dropWhile Text.isBlank = body :=
    List.takeWhile_append_dropWhile
  have hblanks : ∀ c ∈ body.takeWhile Text.isBlank, Text.isBlank c = true :=
    fun c hc => List.mem_takeWhile_imp hc
  unfold line
  rw [hbody]
  dsimp only
  split
  · rename_i rest hrest
    obtain ⟨back, hback, hclosing⟩ := exists_closing rest
    rw [hrest] at hsplit
    have hform : inPipeForm body = true := hsplit ▸ inPipeForm_pipes hblanks rest
    refine ⟨body.takeWhile Text.isBlank ++ ['|'], dropClosingPipe rest, back, ?_, ?_⟩
    · have hregion := Region.pipes hblanks hclosing
      rwa [List.append_assoc _ _ back, ← hback, List.append_assoc, List.singleton_append,
        hsplit] at hregion
    · rw [hform, List.length_append]
      rfl
  · rename_i hno
    have hform : inPipeForm body = false := by
      cases hdrop : body.dropWhile Text.isBlank with
      | nil => simp [inPipeForm, hdrop]
      | cons c rest =>
        have hc : c ≠ '|' := by
          rintro rfl
          exact hno rest hdrop
        simp [inPipeForm, hdrop, hc]
    exact ⟨[], body, [], .plain hform, by rw [hform]; rfl⟩

namespace Region

variable {body front region back : Text}

theorem split (h : Region body front region back) : body = front ++ region ++ back := by
  cases h with
  | plain => simp
  | pipes => rfl

theorem opensAt (h : Region body front region back) {i : Nat} {c : Char}
    (hi : front[i]? = some c) (hc : Text.isBlank c = false) : OpensAt body i := by
  cases h with
  | plain => simp at hi
  | @pipes blanks region back hblanks hback =>
    have hblank {j : Nat} (hj : j < blanks.length) {d : Char}
        (hd : (blanks ++ ['|'] ++ region ++ back)[j]? = some d) : Text.isBlank d = true := by
      rw [List.append_assoc, List.append_assoc, List.getElem?_append_left hj] at hd
      exact hblanks d (List.mem_of_getElem? hd)
    have hat : i = blanks.length := by
      rcases Nat.lt_trichotomy i blanks.length with hlt | heq | hgt
      · rw [List.getElem?_append_left hlt] at hi
        simp [hblanks c (List.mem_of_getElem? hi)] at hc
      · exact heq
      · rw [List.getElem?_eq_none (by simpa using Nat.succ_le_of_lt hgt)] at hi
        cases hi
    subst hat
    constructor
    · simp
    · exact fun j hj d hd => hblank hj hd

theorem closesAt (h : Region body front region back) {i : Nat} {c : Char}
    (hi : back[i]? = some c) (hc : Text.isBlank c = false) :
    ClosesAt body (front.length + region.length + i) := by
  have hopens {j : Nat} {d : Char} (hj : front[j]? = some d) (hd : Text.isBlank d = false) :=
    h.opensAt hj hd
  cases h with
  | plain => simp at hi
  | @pipes blanks region back hblanks hback =>
    cases hback with
    | none => simp at hi
    | pipe hregion hbehind =>
      have hat : i = 0 := by
        cases i with
        | zero => rfl
        | succ i =>
          rw [List.getElem?_cons_succ] at hi
          simp [hbehind c (List.mem_of_getElem? hi)] at hc
      subst hat
      have hfront : (blanks ++ ['|'] ++ region).length =
          (blanks ++ ['|']).length + region.length := List.length_append
      rw [Nat.add_zero, ← hfront]
      have hopening : OpensAt (blanks ++ ['|'] ++ region ++ '|' :: _) blanks.length :=
        hopens (d := '|') (by simp) (by decide)
      refine ⟨by simp, ?_, blanks.length, hopening, by simp, ?_⟩
      · intro j hj d hd
        obtain ⟨k, rfl⟩ := Nat.exists_eq_add_of_lt hj
        rw [Nat.add_assoc, Text.getElem?_add, List.getElem?_cons_succ] at hd
        exact hbehind d (List.mem_of_getElem? hd)
      · rcases List.eq_nil_or_concat region with rfl | ⟨init, last, rfl⟩
        · exact .inl (by simp)
        · rw [List.concat_eq_append] at hregion ⊢
          exact .inr ⟨last, by simp, hregion last (by simp)⟩

theorem separatesAt (h : Region body front region back) {pipeForm : Bool} {i : Nat}
    (hi : SeparatesAt pipeForm region i) : SeparatesAt pipeForm body (front.length + i) := by
  have hlt : i < region.length := (List.getElem?_eq_some_iff.1 hi.pipe).1
  have hkeep {j : Nat} (hj : j < region.length) : (region ++ back)[j]? = region[j]? :=
    List.getElem?_append_left hj
  -- A closing pipe has white space before it, so the pipe at `i` is not the last of the region.
  have hnext : (region ++ back)[i + 1]? = region[i + 1]? := by
    by_cases hlast : i + 1 < region.length
    · exact hkeep hlast
    · have hlength : region.length = i + 1 := by omega
      have hgetLast : region.getLast? = some '|' := by
        rw [List.getLast?_eq_getElem?, hlength]
        exact hi.pipe
      cases h with
      | plain => simp
      | pipes _ hback =>
        cases hback with
        | none => simp
        | pipe hregion => exact absurd (hregion '|' hgetLast) (by decide)
  have hwhole : SeparatesAt pipeForm (region ++ back) i := by
    obtain ⟨j, c, rfl, hj, hgap⟩ := hi.before
    constructor
    · rw [hkeep hlt]
      exact hi.pipe
    · exact ⟨j, c, rfl, by rw [hkeep (by omega), hj], hgap⟩
    · rw [hnext]
      exact hi.behind
    · rw [hnext, hkeep (by omega)]
      exact hi.form
  rw [h.split, List.append_assoc]
  exact hwhole.append_left front

/-- A visible character of the body belongs to a cell of the region, unless it is a pipe
taken as a delimiter. -/
theorem covered (h : Region body front region back) {number : Nat} {cells : List Cell}
    (hcells : Layout (inPipeForm body) number front.length region cells) {i : Nat} {c : Char}
    (hi : body[i]? = some c) (hc : Text.isBlank c = false) :
    (∃ cell ∈ cells, cell.Covers i) ∨ DelimitsAt body i ∧ ∀ cell ∈ cells, ¬ cell.Covers i := by
  by_cases hfront : i < front.length
  · rw [h.split, List.append_assoc, List.getElem?_append_left hfront] at hi
    refine .inr ⟨.inl (h.opensAt hi hc), fun cell hcell hcovers => ?_⟩
    have hle := (hcells.bounds hcell).1
    have hge := hcovers.1
    omega
  · obtain ⟨k, rfl⟩ := Nat.exists_eq_add_of_le (Nat.le_of_not_lt hfront)
    rw [h.split, List.append_assoc, Text.getElem?_add] at hi
    by_cases hregion : k < region.length
    · rw [List.getElem?_append_left hregion] at hi
      refine (hcells.covered hi hc).imp id fun hseparates => ?_
      exact ⟨.inr (.inr (h.separatesAt hseparates.1)), hseparates.2⟩
    · obtain ⟨j, rfl⟩ := Nat.exists_eq_add_of_le (Nat.le_of_not_lt hregion)
      rw [Text.getElem?_add] at hi
      rw [← Nat.add_assoc]
      refine .inr ⟨.inr (.inl (h.closesAt hi hc)), fun cell hcell hcovers => ?_⟩
      have hle := (hcells.bounds hcell).2.2
      have hlt := hcovers.2
      omega

end Region

/-- The cells show the visible text of their line in the columns where it stands. -/
structure Shows (number : Nat) (t body : Text) (cells : List Cell) : Prop where
  same_line : ∀ cell ∈ cells, cell.span.start.line = number ∧ cell.span.stop.line = number
  columns : ∀ cell ∈ cells,
    cell.span.start.column ≤ cell.span.stop.column ∧ cell.span.stop.column ≤ t.length
  content : ∀ cell ∈ cells,
    (t.take cell.span.stop.column).drop cell.span.start.column = cell.content
  whole : ∀ cell ∈ cells, Whole cell.content
  apart : cells.Pairwise fun a b => a.span.stop.column < b.span.start.column
  covered : ∀ i < body.length, ∀ c, t[i]? = some c → Text.isBlank c = false →
    (∃! cell, cell ∈ cells ∧ cell.Covers i) ∨
      c = '|' ∧ DelimitsAt body i ∧ ∀ cell ∈ cells, ¬ cell.Covers i
  uncovered : ∀ i, body.length ≤ i → ∀ cell ∈ cells, ¬ cell.Covers i

theorem eq_of_covers {cells : List Cell}
    (h : cells.Pairwise fun a b => a.span.stop.column < b.span.start.column)
    {a b : Cell} (ha : a ∈ cells) (hb : b ∈ cells) {i : Nat} (hai : a.Covers i)
    (hbi : b.Covers i) : a = b := by
  induction h with
  | nil => cases ha
  | cons hfirst _ ih =>
    obtain ⟨hastart, hastop⟩ := hai
    obtain ⟨hbstart, hbstop⟩ := hbi
    rcases List.mem_cons.1 ha with rfl | ha'
    · rcases List.mem_cons.1 hb with rfl | hb'
      · rfl
      · have hlt := hfirst b hb'
        omega
    · rcases List.mem_cons.1 hb with rfl | hb'
      · have hlt := hfirst a ha'
        omega
      · exact ih ha' hb'

theorem shows_line (number : Nat) (t : Text) :
    Shows number t (uncommented false t) (line number t) := by
  obtain ⟨front, region, back, hregion, hline⟩ := exists_region number t
  obtain ⟨comment, hbody⟩ := uncommented_isPrefix false t
  have hlayout := layout_cells (inPipeForm (uncommented false t)) number front.length region
  rw [← hline] at hlayout
  have hlength : front.length + region.length ≤ (uncommented false t).length := by
    rw [hregion.split, List.length_append, List.length_append]
    exact Nat.le_add_right _ _
  have hstop {cell : Cell} (hcell : cell ∈ line number t) :
      cell.span.stop.column ≤ (uncommented false t).length :=
    le_trans (hlayout.bounds hcell).2.2 hlength
  constructor
  · intro cell hcell
    obtain ⟨lead, behind, -, hspan⟩ := hlayout.exists_of_mem hcell
    rw [hspan]
    exact ⟨rfl, rfl⟩
  · intro cell hcell
    exact ⟨(hlayout.bounds hcell).2.1,
      le_trans (hstop hcell) (uncommented_isPrefix false t).length_le⟩
  · intro cell hcell
    obtain ⟨lead, behind, hsplit, hspan⟩ := hlayout.exists_of_mem hcell
    have ht : t = (front ++ lead) ++ cell.content ++ (behind ++ back ++ comment) := by
      conv_lhs => rw [← hbody, hregion.split, hsplit]
      simp
    rw [hspan]
    simp only [Span.onLine, ← List.length_append]
    rw [ht, List.take_left, List.drop_left]
  · exact fun cell hcell => hlayout.whole_of_mem hcell
  · exact hlayout.pairwise
  · intro i hi c hc hvisible
    rw [← hbody, List.getElem?_append_left hi] at hc
    rcases hregion.covered hlayout hc hvisible with ⟨cell, hcell, hcovers⟩ | ⟨hdelimits, hnone⟩
    · refine .inl ⟨cell, ⟨hcell, hcovers⟩, fun other hother => ?_⟩
      exact eq_of_covers hlayout.pairwise hother.1 hcell hother.2 hcovers
    · have hpipe : some c = some '|' := hc.symm.trans hdelimits.pipe
      exact .inr ⟨Option.some.inj hpipe, hdelimits, hnone⟩
  · intro i hi cell hcell hcovers
    have hle := hstop hcell
    have hlt := hcovers.2
    omega

end Segment

theorem Row.exists_line_of_mem_readFrom {number : Nat} {lines : List Text} {row : Row}
    (h : row ∈ Row.readFrom number lines) :
    ∃ i line, lines[i]? = some line ∧ row = Row.read (number + i) line := by
  induction lines generalizing number with
  | nil => cases h
  | cons line lines ih =>
    rcases List.mem_cons.1 h with rfl | h
    · exact ⟨0, line, rfl, rfl⟩
    · obtain ⟨i, other, hother, hrow⟩ := ih h
      exact ⟨i + 1, other, hother, by rw [hrow, Nat.add_right_comm, Nat.add_assoc]⟩

theorem Table.collect_flatten (rows : List Row) :
    (Table.collect rows).1 ++ (Table.collect rows).2.flatMap (fun t => t.header :: t.rows) =
      rows := by
  induction rows with
  | nil => rfl
  | cons row rows ih =>
    by_cases h : row.isHeader = true
    · simp [Table.collect, h, ih]
    · simp [Table.collect, h, ih]

theorem Table.sublist_of_mem_ofRows {rows : List Row} {table : Table}
    (h : table ∈ Table.ofRows rows) : (table.header :: table.rows).Sublist rows := by
  rw [← Table.collect_flatten rows, List.flatMap_def]
  have hmem := List.mem_map_of_mem (f := fun t : Table => t.header :: t.rows) h
  exact (List.sublist_flatten_of_mem hmem).trans (List.sublist_append_right _ _)

/-- Every cell of a table stands on one line of the text, in the columns its span names;
the cells of a row do not touch and hold every visible character before the comment but
the pipes taken as delimiters. -/
theorem Table.read_shows_lines (text : Text) {table : Table} (htable : table ∈ Table.read text)
    {row : Row} (hrow : row = table.header ∨ row ∈ table.rows) :
    ∃ number line body, (Text.lines text)[number]? = some line ∧ Segment.Body line body ∧
      Segment.Shows number line body row.cells := by
  have hmem := (Table.sublist_of_mem_ofRows htable).subset (List.mem_cons.2 hrow)
  obtain ⟨number, line, hline, hread⟩ := Row.exists_line_of_mem_readFrom hmem
  rw [Nat.zero_add] at hread
  subst hread
  exact ⟨number, line, Segment.uncommented false line, hline, Segment.body_uncommented line,
    Segment.shows_line number line⟩

/-- A separator takes in one pipe; the next one belongs to a cell. -/
theorem Table.read_shows_pipe_row :
    ∃ table ∈ Table.read "*** T ***\n| a b |  | c | # d".toList, ∃ row ∈ table.rows,
      row.cells = [⟨"a b".toList, .onLine 1 2 5⟩, ⟨"| c".toList, .onLine 1 9 12⟩] ∧
      ∃ number line body,
        (Text.lines "*** T ***\n| a b |  | c | # d".toList)[number]? = some line ∧
        Segment.Body line body ∧ Segment.Shows number line body row.cells := by
  let row : Row := ⟨[⟨"a b".toList, .onLine 1 2 5⟩, ⟨"| c".toList, .onLine 1 9 12⟩],
    .onLine 1 2 12⟩
  let header : Row := ⟨[⟨"*** T ***".toList, .onLine 0 0 9⟩], .onLine 0 0 9⟩
  have hrows : Row.readFrom 0 (Text.lines "*** T ***\n| a b |  | c | # d".toList) =
      [header, row] := by
    cbv
  have hread : Table.read "*** T ***\n| a b |  | c | # d".toList =
      [⟨"T".toList, header, [row]⟩] := by
    rw [Table.read, hrows]
    rfl
  have htable := hread ▸ List.mem_singleton_self _
  exact ⟨_, htable, row, List.mem_singleton_self _, rfl,
    Table.read_shows_lines _ htable (.inr (List.mem_singleton_self _))⟩

end SuiteIndex
