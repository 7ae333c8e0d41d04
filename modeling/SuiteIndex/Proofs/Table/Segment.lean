import SuiteIndex.Proofs.Text.Split
import SuiteIndex.Proofs.Text.Trim
import SuiteIndex.Table.Segment

/-! # The layout of a line

Reading a line lays it out as stretches and separators in turn: no separator starts
inside a stretch, a separator is a gap that may hold one pipe, and the cells are the
stretches without the white space around them.
-/

namespace SuiteIndex

/-- Whether the character in this column belongs to the cell. -/
def Cell.Covers (cell : Cell) (column : Nat) : Prop :=
  cell.span.start.column ≤ column ∧ column < cell.span.stop.column

namespace Segment

/-- What stands behind a cell, before the rest of the line. A pipe inside it has a gap or
the end of the line behind it; outside pipe form there is a single space before it and a
space behind it. -/
inductive Separator (pipeForm : Bool) : Text → Text → Prop where
  | finish : Separator pipeForm [] []
  | gap {gap rest : Text} (hne : gap ≠ []) (hgap : ∀ c ∈ gap, isGap c = true) :
    Separator pipeForm gap rest
  | pipe {gap behind rest : Text} (hne : gap ≠ []) (hgap : ∀ c ∈ gap, isGap c = true)
    (hbehind : ∀ c ∈ behind, isGap c = true) (hend : behind = [] → rest = [])
    (hform : pipeForm = true ∨ gap = [' '] ∧ behind.head? = some ' ') :
    Separator pipeForm (gap ++ '|' :: behind) rest

/-- A separator takes in what it can: no gap is left behind it, and in pipe form no pipe that it
could have. -/
structure Maximal (pipeForm : Bool) (separator rest : Text) : Prop where
  gap : ∀ c, rest.head? = some c → isGap c = false
  pipe : pipeForm = true → (∀ c ∈ separator, isGap c = true) → pipeFollows rest = false

/-- The cells of a piece of a line that starts at `column`. -/
inductive Layout (pipeForm : Bool) (number : Nat) : Nat → Text → List Cell → Prop where
  | nil (column : Nat) : Layout pipeForm number column [] []
  | cons {column : Nat} {stretch separator rest : Text} {cells : List Cell}
    (hne : stretch ++ separator ++ rest ≠ [])
    (hfree : ∀ i < stretch.length, opens ((stretch ++ separator ++ rest).drop i) = false)
    (hseparator : Separator pipeForm separator rest)
    (hrest : Layout pipeForm number (column + stretch.length + separator.length) rest cells) :
    Layout pipeForm number column (stretch ++ separator ++ rest)
      (cell number column stretch :: cells)

theorem isBlank_of_isGap {c : Char} (h : isGap c = true) : Text.isBlank c = true := by
  simp only [isGap, Bool.or_eq_true, decide_eq_true_eq] at h
  rcases h with rfl | rfl <;> decide

theorem leading_append_drop (t : Text) : leading t ++ t.drop (leading t).length = t := by
  induction t with
  | nil => rfl
  | cons c t ih =>
    by_cases h : opens (c :: t) = true
    · simp [leading, h]
    · simp [leading, h, ih]

theorem opens_drop_of_lt {t : Text} {i : Nat} (hi : i < (leading t).length) :
    opens (t.drop i) = false := by
  induction t generalizing i with
  | nil => simp [leading] at hi
  | cons c t ih =>
    by_cases h : opens (c :: t) = true
    · simp [leading, h] at hi
    · cases i with
      | zero => simpa using h
      | succ i =>
        simp only [leading, h, Bool.false_eq_true, if_false, List.length_cons] at hi
        exact ih (Nat.lt_of_succ_lt_succ hi)

theorem opens_drop_leading (t : Text) :
    t.drop (leading t).length = [] ∨ opens (t.drop (leading t).length) = true := by
  induction t with
  | nil => exact .inl rfl
  | cons c t ih =>
    by_cases h : opens (c :: t) = true
    · exact .inr (by simp [leading, h])
    · simpa [leading, h] using ih

theorem opens_cases {t : Text} (h : opens t = true) :
    (∃ u, t = '\t' :: u) ∨ (∃ u, t = ' ' :: ' ' :: u) ∨ ∃ u, t = ' ' :: '|' :: ' ' :: u := by
  unfold opens at h
  split at h
  · exact .inl ⟨_, rfl⟩
  · exact .inr (.inl ⟨_, rfl⟩)
  · exact .inr (.inr ⟨_, rfl⟩)
  · cases h

theorem isGap_of_opens {c : Char} {t : Text} (h : opens (c :: t) = true) : isGap c = true := by
  rcases opens_cases h with ⟨u, hu⟩ | ⟨u, hu⟩ | ⟨u, hu⟩ <;> cases hu <;> decide

/-- A pipe with a single space before it has one behind it where a separator starts. -/
theorem space_of_opens_pipe {t : Text} (h : opens (' ' :: '|' :: t) = true) :
    t.head? = some ' ' := by
  rcases opens_cases h with ⟨u, hu⟩ | ⟨u, hu⟩ | ⟨u, hu⟩ <;> cases hu
  rfl

theorem pipeFollows_cases {t : Text} (h : pipeFollows t = true) :
    ∃ u, t = '|' :: u ∧ ∀ c, u.head? = some c → isGap c = true := by
  unfold pipeFollows at h
  split at h
  · exact ⟨[], rfl, by simp⟩
  · exact ⟨_, rfl, by simpa using h⟩
  · cases h

theorem isGap_head_dropWhile {t : Text} {c : Char} (h : (t.dropWhile isGap).head? = some c) :
    isGap c = false := by
  have hnot := List.head?_dropWhile_not isGap t
  simpa [h] using hnot

theorem exists_separator (pipeForm : Bool) {t : Text} (h : opens t = true) :
    ∃ separator rest, t = separator ++ rest ∧ separator.length = width pipeForm t ∧
      Separator pipeForm separator rest ∧ Maximal pipeForm separator rest := by
  cases t with
  | nil => cases h
  | cons c t =>
    have hc := isGap_of_opens h
    have ht : t.takeWhile isGap ++ t.dropWhile isGap = t := List.takeWhile_append_dropWhile
    have hgap : ∀ d ∈ c :: t.takeWhile isGap, isGap d = true := by
      intro d hd
      rcases List.mem_cons.1 hd with rfl | hd
      · exact hc
      · exact List.mem_takeWhile_imp hd
    simp only [width, Text.drop_length_takeWhile]
    split
    · rename_i hpipe
      rw [Bool.and_eq_true, Bool.or_eq_true, Bool.and_eq_true] at hpipe
      obtain ⟨u, hu, hhead⟩ := pipeFollows_cases hpipe.1
      rw [hu] at ht ⊢
      refine ⟨(c :: t.takeWhile isGap) ++ '|' :: u.takeWhile isGap, u.dropWhile isGap, ?_, ?_, ?_,
        fun d => isGap_head_dropWhile, fun _ hall => absurd (hall '|' (by simp)) (by decide)⟩
      · have hbehind : u.takeWhile isGap ++ u.dropWhile isGap = u := List.takeWhile_append_dropWhile
        conv_lhs => rw [← ht, ← hbehind]
        simp
      · simp only [List.length_append, List.length_cons, List.drop_one, List.tail_cons]
        omega
      · refine .pipe (List.cons_ne_nil _ _) hgap (fun d hd => List.mem_takeWhile_imp hd) ?_ ?_
        · intro hnil
          cases u with
          | nil => rfl
          | cons d u => simp [hhead d rfl] at hnil
        · refine hpipe.2.imp id fun hspace => ?_
          obtain ⟨hspace, hzero⟩ := hspace
          have hnil := List.eq_nil_of_length_eq_zero (of_decide_eq_true hzero)
          obtain rfl := of_decide_eq_true hspace
          rw [hnil, List.nil_append] at ht
          rw [← ht] at h
          have hsecond := space_of_opens_pipe h
          cases u with
          | nil => cases hsecond
          | cons d u => simp_all [isGap]
    · rename_i hpipe
      refine ⟨c :: t.takeWhile isGap, t.dropWhile isGap, ?_, ?_, .gap (List.cons_ne_nil _ _) hgap,
        fun d => isGap_head_dropWhile, fun hform _ => by simpa [hform] using hpipe⟩
      · rw [List.cons_append, ht]
      · rw [List.length_cons, Nat.add_comm]

theorem layout_cells (pipeForm : Bool) (number column : Nat) (t : Text) :
    Layout pipeForm number column t (cells pipeForm number column t) := by
  fun_induction cells pipeForm number column t with
  | case1 column => exact .nil column
  | case2 column c t first rest ih =>
    have hfirst : first ++ rest = c :: t := leading_append_drop (c :: t)
    have hopens : ∀ i < first.length, opens ((first ++ rest).drop i) = false :=
      fun i hi => hfirst ▸ opens_drop_of_lt hi
    obtain ⟨separator, behind, hsplit, hlength, hseparator⟩ :
        ∃ separator behind, rest = separator ++ behind ∧ separator.length = width pipeForm rest ∧
          Separator pipeForm separator behind := by
      rcases opens_drop_leading (c :: t) with hnil | hopen
      · exact ⟨[], [], hnil, by rw [show rest = [] from hnil]; rfl, .finish⟩
      · obtain ⟨separator, behind, hsplit, hlength, hseparator, -⟩ :=
          exists_separator pipeForm hopen
        exact ⟨separator, behind, hsplit, hlength, hseparator⟩
    rw [← hlength, hsplit, List.drop_left] at ih
    rw [hsplit, ← List.append_assoc] at hopens hfirst
    rw [← hfirst, ← hlength, hsplit, List.drop_left]
    exact .cons (hfirst ▸ List.cons_ne_nil c t) hopens hseparator ih

@[simp] theorem content_cell (number column : Nat) (stretch : Text) :
    (cell number column stretch).content = Text.trim stretch := by
  by_cases h : Text.trim stretch = [] <;> simp [cell, h]

theorem exists_cell (number column : Nat) (stretch : Text) :
    ∃ lead behind, stretch = lead ++ (cell number column stretch).content ++ behind ∧
      (cell number column stretch).span = .onLine number (column + lead.length)
        (column + lead.length + (cell number column stretch).content.length) ∧
      (∀ c ∈ lead, Text.isBlank c = true) ∧ ∀ c ∈ behind, Text.isBlank c = true := by
  rw [content_cell]
  by_cases hempty : Text.trim stretch = []
  · have hblank := Text.isBlank_of_trim_eq_nil hempty
    exact ⟨[], stretch, by simp [hempty], by simp [cell, hempty], by simp, hblank⟩
  · obtain ⟨behind, hstretch, hbehind⟩ := Text.exists_trim_append stretch
    exact ⟨stretch.takeWhile Text.isBlank, behind, hstretch,
      by simp [cell, hempty, Text.indentation], fun c hc => List.mem_takeWhile_imp hc, hbehind⟩

theorem not_infix_of_free {stretch more word : Text}
    (hfree : ∀ i < stretch.length, opens ((stretch ++ more).drop i) = false)
    (hne : word ≠ []) (hword : ∀ t, opens (word ++ t) = true) : ¬ word <:+: stretch := by
  rintro ⟨before, behind, rfl⟩
  have hlt : before.length < (before ++ word ++ behind).length := by
    have hpos := List.length_pos_of_ne_nil hne
    simp only [List.length_append]
    omega
  have hclosed := hfree before.length hlt
  rw [List.append_assoc, List.append_assoc, List.drop_left, hword] at hclosed
  cases hclosed

/-- The content has no white space at its ends and nothing inside that separates cells. -/
structure Whole (content : Text) : Prop where
  head : ∀ c, content.head? = some c → Text.isBlank c = false
  last : ∀ c, content.getLast? = some c → Text.isBlank c = false
  no_tab : ¬ ['\t'] <:+: content
  no_spaces : ¬ [' ', ' '] <:+: content
  no_pipe : ¬ [' ', '|', ' '] <:+: content

theorem whole_cell (number column : Nat) {stretch more : Text}
    (hfree : ∀ i < stretch.length, opens ((stretch ++ more).drop i) = false) :
    Whole (cell number column stretch).content := by
  obtain ⟨lead, behind, hstretch, -⟩ := exists_cell number column stretch
  have hinfix : (cell number column stretch).content <:+: stretch := ⟨lead, behind, hstretch.symm⟩
  constructor
  · exact fun c h => Text.isBlank_head_trim (content_cell number column stretch ▸ h)
  · exact fun c h => Text.isBlank_getLast_trim (content_cell number column stretch ▸ h)
  · exact fun h => not_infix_of_free hfree (by simp) (fun t => rfl) (h.trans hinfix)
  · exact fun h => not_infix_of_free hfree (by simp) (fun t => rfl) (h.trans hinfix)
  · exact fun h => not_infix_of_free hfree (by simp) (fun t => rfl) (h.trans hinfix)

/-- A pipe with gaps around it, or the end of the line behind it. Outside pipe form the
gaps are spaces. -/
structure SeparatesAt (pipeForm : Bool) (t : Text) (i : Nat) : Prop where
  pipe : t[i]? = some '|'
  before : ∃ j c, i = j + 1 ∧ t[j]? = some c ∧ isGap c = true
  behind : ∀ c, t[i + 1]? = some c → isGap c = true
  form : pipeForm = true ∨ t[i - 1]? = some ' ' ∧ t[i + 1]? = some ' '

theorem SeparatesAt.append_left {pipeForm : Bool} {t : Text} {i : Nat}
    (h : SeparatesAt pipeForm t i) (front : Text) :
    SeparatesAt pipeForm (front ++ t) (front.length + i) := by
  obtain ⟨j, c, rfl, hc, hgap⟩ := h.before
  constructor
  · rw [Text.getElem?_add]
    exact h.pipe
  · exact ⟨front.length + j, c, rfl, by rw [Text.getElem?_add, hc], hgap⟩
  · intro d hd
    rw [Nat.add_assoc, Text.getElem?_add] at hd
    exact h.behind d hd
  · have hj : front.length + (j + 1) - 1 = front.length + (j + 1 - 1) := rfl
    rw [hj, Text.getElem?_add, Nat.add_assoc, Text.getElem?_add]
    exact h.form

theorem Separator.separatesAt {pipeForm : Bool} {separator rest : Text}
    (h : Separator pipeForm separator rest) {i : Nat} {c : Char} (hi : separator[i]? = some c)
    (hc : Text.isBlank c = false) : SeparatesAt pipeForm (separator ++ rest) i := by
  cases h with
  | finish => simp at hi
  | gap hne hgap =>
    have hblank := isBlank_of_isGap (hgap c (List.mem_of_getElem? hi))
    simp [hc] at hblank
  | @pipe gap behind _ hne hgap hbehind hend hform =>
    have hat : i = gap.length := by
      rcases Nat.lt_trichotomy i gap.length with hlt | heq | hgt
      · rw [List.getElem?_append_left hlt] at hi
        have hblank := isBlank_of_isGap (hgap c (List.mem_of_getElem? hi))
        simp [hc] at hblank
      · exact heq
      · obtain ⟨k, rfl⟩ := Nat.exists_eq_add_of_lt hgt
        rw [List.getElem?_append_right (by omega)] at hi
        have hk : gap.length + k + 1 - gap.length = k + 1 := by omega
        rw [hk, List.getElem?_cons_succ] at hi
        have hblank := isBlank_of_isGap (hbehind c (List.mem_of_getElem? hi))
        simp [hc] at hblank
    subst hat
    obtain ⟨front, last, hconcat⟩ := (List.eq_nil_or_concat gap).resolve_left hne
    rw [List.concat_eq_append] at hconcat
    subst hconcat
    have hlast : isGap last = true := hgap last (by simp)
    have hnext : (front ++ [last] ++ '|' :: behind ++ rest)[(front ++ [last]).length + 1]? =
        (behind ++ rest).head? := by
      rw [List.append_assoc, Text.getElem?_add, List.cons_append, List.getElem?_cons_succ,
        List.head?_eq_getElem?]
    constructor
    · simp
    · exact ⟨front.length, last, by simp, by simp, hlast⟩
    · intro d hd
      rw [hnext] at hd
      cases behind with
      | nil => simp [hend rfl] at hd
      | cons e behind =>
        obtain rfl : e = d := by simpa using hd
        exact hbehind e List.mem_cons_self
    · refine hform.imp id fun hspace => ⟨?_, ?_⟩
      · have hspaces : last = ' ' := by simpa using congrArg List.getLast? hspace.1
        simp [hspaces]
      · rw [hnext, List.head?_append, hspace.2]
        rfl

namespace Layout

variable {pipeForm : Bool} {number column : Nat} {t : Text} {cells : List Cell}

theorem exists_of_mem (h : Layout pipeForm number column t cells) {cell : Cell}
    (hcell : cell ∈ cells) : ∃ lead behind, t = lead ++ cell.content ++ behind ∧
      cell.span = .onLine number (column + lead.length)
        (column + lead.length + cell.content.length) := by
  induction h with
  | nil => cases hcell
  | @cons column stretch separator rest cells _ _ _ _ ih =>
    rcases List.mem_cons.1 hcell with rfl | hcell
    · obtain ⟨lead, behind, hstretch, hspan, -⟩ := exists_cell number column stretch
      refine ⟨lead, behind ++ separator ++ rest, ?_, hspan⟩
      conv_lhs => rw [hstretch]
      simp
    · obtain ⟨lead, behind, hrest, hspan⟩ := ih hcell
      refine ⟨stretch ++ separator ++ lead, behind, ?_, ?_⟩
      · rw [hrest]
        simp
      · rw [hspan]
        simp [Nat.add_assoc]

theorem whole_of_mem (h : Layout pipeForm number column t cells) {cell : Cell}
    (hcell : cell ∈ cells) : Whole cell.content := by
  induction h with
  | nil => cases hcell
  | @cons column stretch separator rest cells _ hfree _ _ ih =>
    rcases List.mem_cons.1 hcell with rfl | hcell
    · rw [List.append_assoc] at hfree
      exact whole_cell number column hfree
    · exact ih hcell

theorem bounds (h : Layout pipeForm number column t cells) {cell : Cell} (hcell : cell ∈ cells) :
    column ≤ cell.span.start.column ∧ cell.span.start.column ≤ cell.span.stop.column ∧
      cell.span.stop.column ≤ column + t.length := by
  obtain ⟨lead, behind, rfl, hspan⟩ := h.exists_of_mem hcell
  simp only [hspan, Span.onLine, List.length_append]
  omega

theorem cell_stop_le (number column : Nat) (stretch : Text) :
    (cell number column stretch).span.stop.column ≤ column + stretch.length := by
  obtain ⟨lead, behind, hstretch, hspan, -⟩ := exists_cell number column stretch
  have hlength := congrArg List.length hstretch
  simp only [List.length_append] at hlength
  rw [hspan]
  simp only [Span.onLine]
  omega

theorem eq_nil (h : Layout pipeForm number column [] cells) : cells = [] := by
  generalize ht : ([] : Text) = t at h
  cases h with
  | nil => rfl
  | cons hne => exact absurd ht.symm hne

theorem pairwise (h : Layout pipeForm number column t cells) :
    cells.Pairwise fun a b => a.span.stop.column < b.span.start.column := by
  induction h with
  | nil => exact List.Pairwise.nil
  | @cons column stretch separator rest cells _ _ hseparator hrest ih =>
    refine List.pairwise_cons.2 ⟨fun b hb => ?_, ih⟩
    have hstop := cell_stop_le number column stretch
    have hstart := (hrest.bounds hb).1
    have hpos : 0 < separator.length := by
      cases hseparator with
      | finish => simp [hrest.eq_nil] at hb
      | gap hne => exact List.length_pos_of_ne_nil hne
      | pipe hne => exact List.length_pos_of_ne_nil (List.append_ne_nil_of_left_ne_nil hne _)
    omega

theorem covers_cell (number column : Nat) {stretch : Text} {i : Nat} {c : Char}
    (hi : stretch[i]? = some c) (hc : Text.isBlank c = false) :
    (cell number column stretch).Covers (column + i) := by
  obtain ⟨lead, behind, hstretch, hspan, hlead, hbehind⟩ := exists_cell number column stretch
  rw [hstretch] at hi
  rw [Cell.Covers, hspan]
  simp only [Span.onLine]
  by_cases hlt : i < lead.length
  · rw [List.append_assoc, List.getElem?_append_left hlt] at hi
    simp [hlead c (List.mem_of_getElem? hi)] at hc
  · by_cases hge : (lead ++ (cell number column stretch).content).length ≤ i
    · rw [List.getElem?_append_right hge] at hi
      simp [hbehind c (List.mem_of_getElem? hi)] at hc
    · rw [List.length_append] at hge
      omega

/-- A visible character belongs to a cell, unless it is the pipe of a separator, which
belongs to none. -/
theorem covered (h : Layout pipeForm number column t cells) {i : Nat} {c : Char}
    (hi : t[i]? = some c) (hc : Text.isBlank c = false) :
    (∃ cell ∈ cells, cell.Covers (column + i)) ∨
      SeparatesAt pipeForm t i ∧ ∀ cell ∈ cells, ¬ cell.Covers (column + i) := by
  induction h generalizing i with
  | nil => simp at hi
  | @cons column stretch separator rest cells _ _ hseparator hrest ih =>
    have hstop := cell_stop_le number column stretch
    by_cases hstretch : i < stretch.length
    · rw [List.append_assoc, List.getElem?_append_left hstretch] at hi
      exact .inl ⟨_, List.mem_cons_self, covers_cell number column hi hc⟩
    · obtain ⟨k, rfl⟩ := Nat.exists_eq_add_of_le (Nat.le_of_not_lt hstretch)
      have hfirst : ¬ (cell number column stretch).Covers (column + (stretch.length + k)) := by
        intro hcovers
        have hlt := hcovers.2
        omega
      rw [List.append_assoc, Text.getElem?_add] at hi
      by_cases hk : k < separator.length
      · rw [List.getElem?_append_left hk] at hi
        refine .inr ⟨?_, fun other hother => ?_⟩
        · rw [List.append_assoc]
          exact (hseparator.separatesAt hi hc).append_left stretch
        · rcases List.mem_cons.1 hother with rfl | hother
          · exact hfirst
          · intro hcovers
            have hle := (hrest.bounds hother).1
            have hge := hcovers.1
            omega
      · obtain ⟨j, rfl⟩ := Nat.exists_eq_add_of_le (Nat.le_of_not_lt hk)
        rw [Text.getElem?_add] at hi
        have hcolumn : column + (stretch.length + (separator.length + j)) =
            column + stretch.length + separator.length + j := by omega
        rw [hcolumn] at hfirst ⊢
        rcases ih hi with ⟨other, hother, hcovers⟩ | ⟨hseparates, hnone⟩
        · exact .inl ⟨other, List.mem_cons_of_mem _ hother, hcovers⟩
        · refine .inr ⟨?_, fun other hother => ?_⟩
          · have hmoved := hseparates.append_left (stretch ++ separator)
            rwa [List.length_append, Nat.add_assoc] at hmoved
          · rcases List.mem_cons.1 hother with rfl | hother
            · exact hfirst
            · exact hnone other hother

end Layout

end Segment

end SuiteIndex
