import SuiteIndex.Proofs.Table.Line

/-! # Pipes that end up in cells

In pipe form a pipe with gaps around it separates cells, but a separator takes in one pipe and
all gaps behind it. So the next pipe, if only gaps stand between, finds none in front of it and
begins a cell. The only other pipe with gaps on both sides that separates nothing has a single
space before it and a tab behind it.
-/

namespace SuiteIndex

namespace Segment

/-- The character in this column belongs to one of the cells. -/
def Covered (cells : List Cell) (column : Nat) : Prop :=
  ∃ cell ∈ cells, cell.Covers column

/-- Only gaps stand between a pipe that is taken as a delimiter and the character. -/
def SharesGap (t : Text) (taken : Nat → Prop) (i : Nat) : Prop :=
  ∃ j < i, t[j]? = some '|' ∧ taken j ∧
    ∀ k, j < k → k < i → ∀ c, t[k]? = some c → isGap c = true

/-- A pipe between the cells of a piece of a line, like the one before the character. -/
def Shared (cells : List Cell) (column : Nat) (t : Text) (i : Nat) : Prop :=
  SharesGap t (fun j => ¬ Covered cells (column + j)) i

/-- A single space stands before the character, and a tab behind it. -/
def BeforeTab (t : Text) (i : Nat) : Prop :=
  ∃ k, i = k + 1 ∧ t[k]? = some ' ' ∧ t[i + 1]? = some '\t' ∧
    ∀ j, k = j + 1 → ∀ c, t[j]? = some c → isGap c = false

theorem drop_eq_cons {t : Text} {i : Nat} {c : Char} (h : t[i]? = some c) :
    t.drop i = c :: t.drop (i + 1) := by
  obtain ⟨hi, rfl⟩ := List.getElem?_eq_some_iff.1 h
  exact List.drop_eq_getElem_cons hi

theorem getElem?_rest (stretch separator rest : Text) (i : Nat) :
    (stretch ++ (separator ++ rest))[stretch.length + separator.length + i]? = rest[i]? := by
  rw [← List.append_assoc, ← List.length_append, Text.getElem?_add]

theorem isGap_cases {c : Char} (h : isGap c = true) : c = ' ' ∨ c = '\t' := by
  simpa [isGap] using h

theorem beforeTab_of_free {t : Text} {k : Nat} {c d : Char} (hfree : opens (t.drop k) = false)
    (hfirst : ∀ j, k = j + 1 → opens (t.drop j) = false) (hbefore : t[k]? = some c)
    (hc : isGap c = true) (hpipe : t[k + 1]? = some '|') (hbehind : t[k + 2]? = some d)
    (hd : isGap d = true) : BeforeTab t (k + 1) := by
  rw [drop_eq_cons hbefore, drop_eq_cons hpipe, drop_eq_cons hbehind] at hfree
  obtain rfl : c = ' ' := by
    rcases isGap_cases hc with rfl | rfl
    · rfl
    · cases hfree
  obtain rfl : d = '\t' := by
    rcases isGap_cases hd with rfl | rfl
    · cases hfree
    · rfl
  refine ⟨k, rfl, hbefore, hbehind, ?_⟩
  rintro j rfl e he
  have hopens := hfirst j rfl
  rw [drop_eq_cons he, drop_eq_cons hbefore] at hopens
  rw [Bool.eq_false_iff]
  intro hgap
  rcases isGap_cases hgap with rfl | rfl <;> cases hopens

/-- The cells of a piece of a line in pipe form: stretches that are as long as no separator
starts in them, and separators that take in all they can. -/
inductive Sliced (number : Nat) : Nat → Text → List Cell → Prop where
  | nil (column : Nat) : Sliced number column [] []
  | last {column : Nat} {stretch : Text} (hne : stretch ≠ [])
    (hfree : ∀ i < stretch.length, opens (stretch.drop i) = false) :
    Sliced number column stretch [cell number column stretch]
  | cons {column : Nat} {stretch separator rest : Text} {cells : List Cell}
    (hfree : ∀ i < stretch.length, opens ((stretch ++ (separator ++ rest)).drop i) = false)
    (hopens : opens (separator ++ rest) = true) (hseparator : Separator true separator rest)
    (hmaximal : Maximal true separator rest)
    (hrest : Sliced number (column + stretch.length + separator.length) rest cells) :
    Sliced number column (stretch ++ (separator ++ rest)) (cell number column stretch :: cells)

theorem sliced_cells (number column : Nat) (t : Text) :
    Sliced number column t (cells true number column t) := by
  fun_induction cells true number column t with
  | case1 column => exact .nil column
  | case2 column c t first rest ih =>
    have hfirst : first ++ rest = c :: t := leading_append_drop (c :: t)
    have hfree : ∀ i < first.length, opens ((first ++ rest).drop i) = false :=
      fun i hi => hfirst ▸ opens_drop_of_lt hi
    rcases opens_drop_leading (c :: t) with hnil | hopens
    · have hnil : rest = [] := hnil
      rw [hnil, List.append_nil] at hfirst hfree
      rw [hnil, ← hfirst, width, List.drop_nil, cells]
      exact .last (hfirst ▸ List.cons_ne_nil c t) hfree
    · obtain ⟨separator, behind, hsplit, hlength, hseparator, hmaximal⟩ :=
        exists_separator true hopens
      have hsplit : rest = separator ++ behind := hsplit
      have hlength : separator.length = width true rest := hlength
      have hopens : opens rest = true := hopens
      rw [← hlength, hsplit, List.drop_left] at ih
      rw [hsplit] at hfree hopens hfirst
      rw [← hfirst, ← hlength, hsplit, List.drop_left]
      exact .cons hfree hopens hseparator hmaximal ih

namespace Sliced

variable {number column : Nat} {t stretch separator rest : Text} {cells : List Cell}

theorem layout (h : Sliced number column t cells) : Layout true number column t cells := by
  induction h with
  | nil column => exact .nil column
  | @last column stretch hne hfree =>
    have hlayout : Layout true number column (stretch ++ [] ++ []) [cell number column stretch] :=
      .cons (by simpa using hne) (by simpa using hfree) .finish (.nil _)
    simpa using hlayout
  | @cons column stretch separator rest cells hfree hopens hseparator _ _ ih =>
    rw [← List.append_assoc] at hfree ⊢
    refine .cons (fun hnil => ?_) hfree hseparator ih
    rw [List.append_assoc] at hnil
    rw [(List.append_eq_nil_iff.1 hnil).2] at hopens
    cases hopens

theorem covered_of_lt {i : Nat} {c : Char} (hi : stretch[i]? = some c)
    (hc : Text.isBlank c = false) :
    Covered (cell number column stretch :: cells) (column + i) :=
  ⟨_, List.mem_cons_self, Layout.covers_cell number column hi hc⟩

theorem covered_cons_iff {i : Nat} (hi : column + stretch.length ≤ i) :
    Covered (cell number column stretch :: cells) i ↔ Covered cells i := by
  have hstop := Layout.cell_stop_le number column stretch
  constructor
  · rintro ⟨other, hother, hcovers⟩
    rcases List.mem_cons.1 hother with rfl | hother
    · have hlt := hcovers.2
      omega
    · exact ⟨other, hother, hcovers⟩
  · rintro ⟨other, hother, hcovers⟩
    exact ⟨other, List.mem_cons_of_mem _ hother, hcovers⟩

theorem not_covered_of_lt (h : Sliced number column t cells) {i : Nat} (hi : i < column) :
    ¬ Covered cells i := by
  rintro ⟨other, hother, hcovers⟩
  have hle := (h.layout.bounds hother).1
  have hge := hcovers.1
  omega

theorem covered_head (h : Sliced number column t cells) (hpipe : t[0]? = some '|') :
    Covered cells column := by
  rcases h.layout.covered hpipe (by decide) with hcovered | ⟨hseparates, -⟩
  · exact hcovered
  · obtain ⟨j, c, hj, -⟩ := hseparates.before
    cases hj

theorem exists_of_separator_pipe (h : Separator true separator rest) {i : Nat}
    (hi : separator[i]? = some '|') : ∃ gap behind, separator = gap ++ '|' :: behind ∧
      gap.length = i ∧ gap ≠ [] ∧ (∀ c ∈ gap, isGap c = true) ∧ ∀ c ∈ behind, isGap c = true := by
  cases h with
  | finish => simp at hi
  | gap hne hgap => cases hgap '|' (List.mem_of_getElem? hi)
  | @pipe gap behind _ hne hgap hbehind =>
    refine ⟨gap, behind, rfl, ?_, hne, hgap, hbehind⟩
    rcases Nat.lt_trichotomy i gap.length with hlt | heq | hgt
    · rw [List.getElem?_append_left hlt] at hi
      cases hgap '|' (List.mem_of_getElem? hi)
    · exact heq.symm
    · obtain ⟨n, rfl⟩ := Nat.exists_eq_add_of_lt hgt
      rw [Nat.add_assoc, Text.getElem?_add, List.getElem?_cons_succ] at hi
      cases hbehind '|' (List.mem_of_getElem? hi)

theorem not_shared_of_separator {gap more : Text} (hgap : ∀ c ∈ gap, isGap c = true) :
    ¬ Shared (cell number column stretch :: cells) column (stretch ++ (gap ++ more))
      (stretch.length + gap.length) := by
  rintro ⟨j, hj, hpipe, huncovered, -⟩
  by_cases hstretch : j < stretch.length
  · rw [List.getElem?_append_left hstretch] at hpipe
    exact huncovered (covered_of_lt hpipe (by decide))
  · obtain ⟨n, rfl⟩ := Nat.exists_eq_add_of_le (Nat.le_of_not_lt hstretch)
    rw [Text.getElem?_add, List.getElem?_append_left (by omega)] at hpipe
    cases hgap '|' (List.mem_of_getElem? hpipe)

/-- A separator that starts with a single space and a pipe has a space behind the pipe. -/
theorem not_beforeTab_of_separator {gap behind : Text} (hne : gap ≠ [])
    (hgap : ∀ c ∈ gap, isGap c = true) (hopens : opens (gap ++ '|' :: behind) = true) :
    ¬ BeforeTab (stretch ++ (gap ++ '|' :: behind)) (stretch.length + gap.length) := by
  rintro ⟨k, hk, hspace, htab, hfirst⟩
  obtain ⟨front, last, rfl⟩ := (List.eq_nil_or_concat gap).resolve_left hne
  rw [List.concat_eq_append] at *
  obtain rfl : k = stretch.length + front.length := by
    rw [List.length_append, List.length_singleton] at hk
    omega
  rcases List.eq_nil_or_concat front with rfl | ⟨before, c, rfl⟩
  · have hlast : last = ' ' := by simpa [Text.getElem?_add] using hspace
    have hnext : behind.head? = some '\t' := by
      rw [Nat.add_assoc, Text.getElem?_add] at htab
      simpa [List.head?_eq_getElem?] using htab
    subst hlast
    have hsecond := space_of_opens_pipe hopens
    rw [hnext] at hsecond
    cases hsecond
  · rw [List.concat_eq_append] at *
    have hc : (stretch ++ (before ++ [c] ++ [last] ++ '|' :: behind))[stretch.length +
        before.length]? = some c := by
      rw [Text.getElem?_add]
      simp
    have hnot := hfirst (stretch.length + before.length) (by simp [Nat.add_assoc]) c hc
    rw [hgap c (by simp)] at hnot
    cases hnot

/-- A pipe right behind a separator shares its gap with the pipe of the separator. -/
theorem shared_of_head (h : Sliced number (column + stretch.length + separator.length) rest cells)
    (hopens : opens (separator ++ rest) = true) (hseparator : Separator true separator rest)
    (hmaximal : Maximal true separator rest) {d : Char} (hpipe : rest[0]? = some '|')
    (hbehind : rest[1]? = some d) (hd : isGap d = true) :
    Shared (cell number column stretch :: cells) column (stretch ++ (separator ++ rest))
      (stretch.length + separator.length) := by
  cases hseparator with
  | finish => cases hopens
  | gap hne hgap =>
    have hfollows : pipeFollows rest = true := by
      have hrest := drop_eq_cons hpipe
      rw [List.drop_zero, drop_eq_cons hbehind] at hrest
      rw [hrest]
      exact hd
    rw [hmaximal.pipe rfl hgap] at hfollows
    cases hfollows
  | @pipe gap behind _ hne hgap hbehind =>
    refine ⟨stretch.length + gap.length, ?_, ?_, ?_, ?_⟩
    · rw [List.length_append, List.length_cons]
      omega
    · rw [Text.getElem?_add]
      simp
    · show ¬ Covered _ _
      rw [covered_cons_iff (by omega)]
      refine h.not_covered_of_lt ?_
      rw [List.length_append, List.length_cons]
      omega
    · intro k hk hlt c hc
      obtain ⟨n, rfl⟩ := Nat.exists_eq_add_of_lt hk
      rw [List.length_append, List.length_cons] at hlt
      rw [Nat.add_assoc, Nat.add_assoc, Text.getElem?_add, List.append_assoc, Text.getElem?_add,
        List.cons_append, List.getElem?_cons_succ, List.getElem?_append_left (by omega)] at hc
      exact hbehind c (List.mem_of_getElem? hc)

/-- What a pipe shares lies in the same piece if the piece does not start with a gap. -/
theorem shared_append_iff (hmaximal : Maximal true separator rest) {i : Nat} (hi : 0 < i)
    (hlt : i < rest.length) :
    Shared (cell number column stretch :: cells) column (stretch ++ (separator ++ rest))
        (stretch.length + separator.length + i) ↔
      Shared cells (column + stretch.length + separator.length) rest i := by
  have hat := getElem?_rest stretch separator rest
  have hcovered (n : Nat) : Covered (cell number column stretch :: cells)
      (column + (stretch.length + separator.length + n)) ↔
        Covered cells (column + stretch.length + separator.length + n) := by
    rw [covered_cons_iff (by omega), ← Nat.add_assoc, ← Nat.add_assoc]
  constructor
  · rintro ⟨j, hj, hpipe, huncovered, hbetween⟩
    by_cases hbefore : j < stretch.length + separator.length
    · obtain ⟨c, hc⟩ : ∃ c, rest[0]? = some c := ⟨rest[0], List.getElem?_eq_getElem (by omega)⟩
      have hgap := hbetween _ hbefore (by omega) c (by simpa using (hat 0).trans hc)
      rw [hmaximal.gap c (by rw [List.head?_eq_getElem?, hc])] at hgap
      cases hgap
    · obtain ⟨n, rfl⟩ := Nat.exists_eq_add_of_le (Nat.le_of_not_lt hbefore)
      rw [hat] at hpipe
      rw [hcovered] at huncovered
      refine ⟨n, by omega, hpipe, huncovered, fun k hk hki c hc => ?_⟩
      exact hbetween (stretch.length + separator.length + k) (by omega) (by omega) c
        ((hat k).trans hc)
  · rintro ⟨n, hn, hpipe, huncovered, hbetween⟩
    refine ⟨stretch.length + separator.length + n, by omega, (hat n).trans hpipe,
      (hcovered n).not.2 huncovered, fun k hk hki c hc => ?_⟩
    obtain ⟨m, rfl⟩ := Nat.exists_eq_add_of_le (show stretch.length + separator.length ≤ k by omega)
    rw [hat] at hc
    exact hbetween m (by omega) (by omega) c hc

theorem beforeTab_append_iff (hmaximal : Maximal true separator rest) {k : Nat} {c : Char}
    (hbefore : rest[k]? = some c) (hc : isGap c = true) :
    BeforeTab (stretch ++ (separator ++ rest)) (stretch.length + separator.length + (k + 1)) ↔
      BeforeTab rest (k + 1) := by
  have hat := getElem?_rest stretch separator rest
  obtain ⟨m, rfl⟩ : ∃ m, k = m + 1 := by
    refine Nat.exists_eq_succ_of_ne_zero ?_
    rintro rfl
    rw [hmaximal.gap c (by rw [List.head?_eq_getElem?, hbefore])] at hc
    cases hc
  constructor
  · rintro ⟨_, hk, hspace, htab, hfirst⟩
    obtain rfl := Nat.succ.inj hk
    refine ⟨m + 1, rfl, (hat _).symm.trans hspace, (hat _).symm.trans htab, ?_⟩
    rintro j hj d hd
    exact hfirst (stretch.length + separator.length + j) (by omega) d ((hat j).trans hd)
  · rintro ⟨_, hk, hspace, htab, hfirst⟩
    obtain rfl := Nat.succ.inj hk
    refine ⟨stretch.length + separator.length + (m + 1), rfl, (hat _).trans hspace,
      (hat _).trans htab, ?_⟩
    rintro j hj d hd
    obtain rfl : j = stretch.length + separator.length + m := by omega
    exact hfirst m rfl d ((hat m).symm.trans hd)

/-- In a piece of a line, a pipe with gaps around it belongs to a cell if it shares its gap
with the pipe of a separator or stands before a tab, and only then. -/
theorem covered_iff (h : Sliced number column t cells) {k : Nat} {c d : Char}
    (hbefore : t[k]? = some c) (hc : isGap c = true) (hpipe : t[k + 1]? = some '|')
    (hbehind : t[k + 2]? = some d) (hd : isGap d = true) :
    Covered cells (column + (k + 1)) ↔ Shared cells column t (k + 1) ∨ BeforeTab t (k + 1) := by
  induction h generalizing k c with
  | nil => simp at hpipe
  | @last column stretch hne hfree =>
    have hlt : k + 1 < stretch.length := (List.getElem?_eq_some_iff.1 hpipe).1
    have htab := beforeTab_of_free (hfree k (by omega)) (fun j hj => hfree j (by omega)) hbefore hc
      hpipe hbehind hd
    exact iff_of_true (covered_of_lt hpipe (by decide)) (.inr htab)
  | @cons column stretch separator rest cells hfree hopens hseparator hmaximal hrest ih =>
    by_cases hstretch : k + 1 < stretch.length
    · have htab := beforeTab_of_free (hfree k (by omega)) (fun j hj => hfree j (by omega)) hbefore
        hc hpipe hbehind hd
      rw [List.getElem?_append_left hstretch] at hpipe
      exact iff_of_true (covered_of_lt hpipe (by decide)) (.inr htab)
    rw [covered_cons_iff (by omega)]
    by_cases hseparate : k + 1 < stretch.length + separator.length
    · refine iff_of_false (hrest.not_covered_of_lt (by omega)) ?_
      obtain ⟨m, hm⟩ := Nat.exists_eq_add_of_le (Nat.le_of_not_lt hstretch)
      rw [hm, Text.getElem?_add, List.getElem?_append_left (by omega)] at hpipe
      obtain ⟨gap, behind, rfl, rfl, hne, hgap, -⟩ := exists_of_separator_pipe hseparator hpipe
      rw [hm, List.append_assoc, List.cons_append] at *
      rw [not_or]
      exact ⟨not_shared_of_separator hgap, not_beforeTab_of_separator hne hgap hopens⟩
    have hoffset : stretch.length + separator.length ≤ k + 1 := Nat.le_of_not_lt hseparate
    have hat := getElem?_rest stretch separator rest
    rcases Nat.eq_or_lt_of_le hoffset with heq | hlt
    · have hpipe : rest[0]? = some '|' := by
        rw [← hat 0, Nat.add_zero, heq]
        exact hpipe
      have hbehind : rest[1]? = some d := by
        rw [← hat 1, heq]
        exact hbehind
      rw [← heq]
      refine iff_of_true ?_ (.inl ?_)
      · rw [← Nat.add_assoc]
        exact hrest.covered_head hpipe
      · exact hrest.shared_of_head hopens hseparator hmaximal hpipe hbehind hd
    · obtain ⟨m, rfl⟩ := Nat.exists_eq_add_of_le (Nat.le_of_lt_succ hlt)
      rw [hat] at hbefore
      rw [Nat.add_assoc, hat] at hpipe hbehind
      have hcolumn : column + (stretch.length + separator.length + (m + 1)) =
          column + stretch.length + separator.length + (m + 1) := by omega
      rw [Nat.add_assoc, shared_append_iff hmaximal (Nat.succ_pos m)
        (List.getElem?_eq_some_iff.1 hpipe).1, beforeTab_append_iff hmaximal hbefore hc, hcolumn]
      exact ih hbefore hc hpipe hbehind

end Sliced

/-- A pipe with a gap or the edge of the text on both sides. -/
structure Spaced (t : Text) (i : Nat) : Prop where
  pipe : t[i]? = some '|'
  before : ∀ j, i = j + 1 → ∀ c, t[j]? = some c → isGap c = true
  behind : ∀ c, t[i + 1]? = some c → isGap c = true

/-- A body in pipe form: the opening pipe, the part that holds the cells, and what closes it. -/
structure Framed (body blanks region back : Text) : Prop where
  split : body = blanks ++ '|' :: (region ++ back)
  blanks : ∀ c ∈ blanks, Text.isBlank c = true
  closing : Closing region back
  complete : back = [] → dropClosingPipe region = region

theorem exists_framed {t : Text} (number : Nat) (h : inPipeForm (uncommented false t) = true) :
    ∃ blanks region back, Framed (uncommented false t) blanks region back ∧
      line number t = cells true number (blanks.length + 1) region := by
  unfold line
  generalize uncommented false t = body at h ⊢
  have hsplit : body.takeWhile Text.isBlank ++ body.dropWhile Text.isBlank = body :=
    List.takeWhile_append_dropWhile
  obtain ⟨rest, hrest⟩ : ∃ rest, body.dropWhile Text.isBlank = '|' :: rest := by
    simpa [inPipeForm, List.head?_eq_some_iff] using h
  obtain ⟨back, hback, hclosing⟩ := exists_closing rest
  refine ⟨body.takeWhile Text.isBlank, dropClosingPipe rest, back, ⟨?_, ?_, hclosing, ?_⟩, ?_⟩
  · rw [← hback, ← hrest, hsplit]
  · exact fun c hc => List.mem_takeWhile_imp hc
  · rintro rfl
    rw [List.append_nil] at hback
    rw [← hback, ← hback]
  · simp only [hrest]
    rfl

namespace Framed

variable {body blanks region back : Text} {i : Nat}

theorem getElem?_behind (h : Framed body blanks region back) (i : Nat) :
    body[blanks.length + 1 + i]? = (region ++ back)[i]? := by
  rw [h.split, Nat.add_assoc, Text.getElem?_add, Nat.add_comm 1, List.getElem?_cons_succ]

theorem getElem?_region (h : Framed body blanks region back) (hi : i < region.length) :
    body[blanks.length + 1 + i]? = region[i]? := by
  rw [h.getElem?_behind, List.getElem?_append_left hi]

theorem getElem?_back (h : Framed body blanks region back) (hback : back ≠ []) :
    body[blanks.length + 1 + region.length]? = some '|' := by
  rw [h.getElem?_behind]
  cases h.closing with
  | none => exact absurd rfl hback
  | pipe => simp

theorem opensAt_iff (h : Framed body blanks region back) :
    OpensAt body i ↔ i = blanks.length := by
  rw [h.split]
  constructor
  · rintro ⟨hpipe, hbefore⟩
    rcases Nat.lt_trichotomy i blanks.length with hlt | heq | hgt
    · rw [List.getElem?_append_left hlt] at hpipe
      cases h.blanks '|' (List.mem_of_getElem? hpipe)
    · exact heq
    · cases hbefore _ hgt '|' (by simp)
  · rintro rfl
    refine ⟨by simp, fun j hj c hc => ?_⟩
    rw [List.getElem?_append_left hj] at hc
    exact h.blanks c (List.mem_of_getElem? hc)

theorem toRegion (h : Framed body blanks region back) :
    Region body (blanks ++ ['|']) region back := by
  have hregion := Region.pipes h.blanks h.closing
  rwa [List.append_assoc _ region, List.append_assoc, List.singleton_append, ← h.split] at hregion

theorem le_of_closesAt (h : Framed body blanks region back) (hi : ClosesAt body i) :
    blanks.length + 1 + region.length ≤ i := by
  obtain ⟨hpipe, hbehind, k, hopens, hk, hbefore⟩ := hi
  obtain rfl := h.opensAt_iff.1 hopens
  by_contra hlt
  obtain ⟨m, rfl⟩ := Nat.exists_eq_add_of_le (Nat.succ_le_of_lt hk)
  have hm : m < region.length := by omega
  rw [h.getElem?_region hm] at hpipe
  by_cases hback : back = []
  · -- No pipe was dropped, so the row cannot end in one that closes it.
    have hsplit : region.take m ++ '|' :: region.drop (m + 1) = region := by
      rw [← drop_eq_cons hpipe, List.take_append_drop]
    have hclosing : Closing (region.take m) ('|' :: region.drop (m + 1)) := by
      refine .pipe (fun c hc => ?_) fun c hc => ?_
      · rcases hbefore with heq | ⟨d, hd, hblank⟩
        · obtain rfl : m = 0 := by omega
          simp at hc
        · rcases Nat.eq_zero_or_pos m with rfl | hpos
          · simp at hc
          · obtain ⟨n, rfl⟩ := Nat.exists_eq_add_of_le' hpos
            have hlast : region[n]? = some d :=
              (h.getElem?_region (Nat.lt_of_succ_lt hm)).symm.trans hd
            rw [List.getLast?_take, if_neg (Nat.succ_ne_zero n), Nat.add_sub_cancel, hlast] at hc
            obtain rfl := Option.some.inj hc
            exact hblank
      · obtain ⟨n, hn⟩ := List.mem_iff_getElem?.1 hc
        rw [List.getElem?_drop] at hn
        refine hbehind (blanks.length + 1 + (m + 1 + n)) (by omega) c ?_
        rw [h.getElem?_region (List.getElem?_eq_some_iff.1 hn).1, hn]
    have hlength := congrArg List.length (hsplit ▸ dropClosingPipe_of_closing hclosing)
    rw [h.complete hback, List.length_take] at hlength
    omega
  · cases hbehind _ (by omega) '|' (h.getElem?_back hback)

/-- A pipe with gaps around it that neither opens nor closes the row stands between two
characters of the part that holds the cells. -/
theorem exists_of_spaced (h : Framed body blanks region back) (hi : Spaced body i)
    (hopens : ¬ OpensAt body i) (hcloses : ¬ ClosesAt body i) :
    ∃ k c d, i = blanks.length + 1 + (k + 1) ∧ region[k]? = some c ∧ isGap c = true ∧
      region[k + 1]? = some '|' ∧ region[k + 2]? = some d ∧ isGap d = true := by
  have hopening : body[blanks.length]? = some '|' := (h.opensAt_iff.2 rfl).1
  obtain ⟨n, rfl⟩ : ∃ n, i = blanks.length + 1 + n := by
    refine Nat.exists_eq_add_of_le (Nat.succ_le_of_lt ?_)
    by_contra hlt
    rcases Nat.eq_or_lt_of_le (Nat.le_of_not_lt hlt) with heq | hlt
    · exact hopens (h.opensAt_iff.2 heq)
    · have hpipe := hi.pipe
      rw [h.split, List.getElem?_append_left hlt] at hpipe
      cases h.blanks '|' (List.mem_of_getElem? hpipe)
  have hn : n < region.length := by
    by_contra hge
    obtain ⟨m, rfl⟩ := Nat.exists_eq_add_of_le (Nat.le_of_not_lt hge)
    have hpipe := hi.pipe
    rw [h.getElem?_behind, Text.getElem?_add] at hpipe
    have hcloses' := h.toRegion.closesAt hpipe (by decide)
    rw [List.length_append, List.length_singleton, Nat.add_assoc] at hcloses'
    exact hcloses hcloses'
  have hpipe : region[n]? = some '|' := (h.getElem?_region hn).symm.trans hi.pipe
  obtain ⟨k, rfl⟩ : ∃ k, n = k + 1 := by
    refine Nat.exists_eq_succ_of_ne_zero ?_
    rintro rfl
    cases hi.before _ rfl '|' hopening
  have hk : region[k]? = some region[k] := List.getElem?_eq_getElem (Nat.lt_of_succ_lt hn)
  have hbefore : isGap region[k] = true :=
    hi.before _ rfl _ ((h.getElem?_region (Nat.lt_of_succ_lt hn)).trans hk)
  have hbehind : k + 2 < region.length := by
    by_contra hge
    have hlength : region.length = k + 2 := by omega
    by_cases hback : back = []
    · -- The pipe is the last character and has a gap before it, so it would close the row.
      refine hcloses ⟨hi.pipe, fun j hj c hc => ?_, blanks.length, h.opensAt_iff.2 rfl, by omega,
        .inr ⟨region[k], ?_, isBlank_of_isGap hbefore⟩⟩
      · obtain ⟨m, rfl⟩ := Nat.exists_eq_add_of_lt hj
        rw [Nat.add_assoc, Nat.add_assoc, h.getElem?_behind, hback, List.append_nil,
          List.getElem?_eq_none (by omega)] at hc
        cases hc
      · exact (h.getElem?_region (Nat.lt_of_succ_lt hn)).trans hk
    · have hclosed := h.getElem?_back hback
      rw [hlength] at hclosed
      cases hi.behind '|' hclosed
  have hd : region[k + 2]? = some region[k + 2] := List.getElem?_eq_getElem hbehind
  exact ⟨k, region[k], region[k + 2], rfl, hk, hbefore, hpipe, hd,
    hi.behind _ ((h.getElem?_region hbehind).trans hd)⟩

theorem sharesGap_iff (h : Framed body blanks region back) {cells : List Cell} {k : Nat}
    (hk : k < region.length) :
    SharesGap body (fun j => ¬ OpensAt body j ∧ ¬ Covered cells j) (blanks.length + 1 + k) ↔
      Shared cells (blanks.length + 1) region k := by
  constructor
  · rintro ⟨j, hj, hpipe, ⟨hopens, huncovered⟩, hbetween⟩
    have hlt : blanks.length < j := by
      by_contra hge
      rcases Nat.eq_or_lt_of_le (Nat.le_of_not_lt hge) with heq | hlt
      · exact hopens (h.opensAt_iff.2 heq)
      · rw [h.split, List.getElem?_append_left hlt] at hpipe
        cases h.blanks '|' (List.mem_of_getElem? hpipe)
    obtain ⟨n, rfl⟩ := Nat.exists_eq_add_of_le (Nat.succ_le_of_lt hlt)
    refine ⟨n, by omega, (h.getElem?_region (by omega)).symm.trans hpipe, huncovered,
      fun m hm hmk c hc => ?_⟩
    exact hbetween (blanks.length + 1 + m) (by omega) (by omega) c
      ((h.getElem?_region (by omega)).trans hc)
  · rintro ⟨n, hn, hpipe, huncovered, hbetween⟩
    refine ⟨blanks.length + 1 + n, by omega, (h.getElem?_region (by omega)).trans hpipe,
      ⟨fun hopens => ?_, huncovered⟩, fun m hm hmk c hc => ?_⟩
    · have heq := h.opensAt_iff.1 hopens
      omega
    · obtain ⟨m, rfl⟩ := Nat.exists_eq_add_of_le (show blanks.length + 1 ≤ m by omega)
      rw [h.getElem?_region (by omega)] at hc
      exact hbetween m (by omega) (by omega) c hc

theorem beforeTab_iff (h : Framed body blanks region back) {k : Nat} (hk : k + 2 < region.length) :
    BeforeTab body (blanks.length + 1 + (k + 1)) ↔ BeforeTab region (k + 1) := by
  have hat {n : Nat} (hn : n < region.length) := h.getElem?_region hn
  constructor
  · rintro ⟨_, heq, hspace, htab, hfirst⟩
    obtain rfl := Nat.succ.inj heq
    refine ⟨k, rfl, (hat (by omega)).symm.trans hspace, (hat hk).symm.trans htab, ?_⟩
    rintro j rfl c hc
    exact hfirst (blanks.length + 1 + j) rfl c ((hat (by omega)).trans hc)
  · rintro ⟨_, heq, hspace, htab, hfirst⟩
    obtain rfl := Nat.succ.inj heq
    refine ⟨blanks.length + 1 + k, rfl, (hat (by omega)).trans hspace, (hat hk).trans htab, ?_⟩
    intro j hj c hc
    cases k with
    | zero =>
      obtain rfl : j = blanks.length := by omega
      rw [(h.opensAt_iff.2 rfl).1] at hc
      obtain rfl := Option.some.inj hc
      decide
    | succ k =>
      obtain rfl : j = blanks.length + 1 + k := by omega
      exact hfirst k rfl c ((hat (by omega)).symm.trans hc)

/-- Of the pipes with gaps around them, the cells hold those that neither open nor close the row
and for which no gap is left, or a tab behind a single space. -/
theorem covered_iff (h : Framed body blanks region back) {number : Nat} (hi : Spaced body i) :
    Covered (cells true number (blanks.length + 1) region) i ↔
      ¬ OpensAt body i ∧ ¬ ClosesAt body i ∧
        (SharesGap body (fun j => ¬ OpensAt body j ∧
            ¬ Covered (cells true number (blanks.length + 1) region) j) i ∨ BeforeTab body i) := by
  have hsliced := sliced_cells number (blanks.length + 1) region
  by_cases hopens : OpensAt body i
  · obtain rfl := h.opensAt_iff.1 hopens
    exact iff_of_false (hsliced.not_covered_of_lt (by omega)) fun hall => hall.1 hopens
  by_cases hcloses : ClosesAt body i
  · refine iff_of_false ?_ fun hall => hall.2.1 hcloses
    rintro ⟨cell, hcell, hcovers⟩
    have hstop := (hsliced.layout.bounds hcell).2.2
    have hlt := hcovers.2
    have hle := h.le_of_closesAt hcloses
    omega
  obtain ⟨k, c, d, rfl, hbefore, hc, hpipe, hbehind, hd⟩ := h.exists_of_spaced hi hopens hcloses
  rw [h.sharesGap_iff (List.getElem?_eq_some_iff.1 hpipe).1,
    h.beforeTab_iff (List.getElem?_eq_some_iff.1 hbehind).1]
  simp only [hopens, hcloses, not_false_eq_true, true_and]
  exact hsliced.covered_iff hbefore hc hpipe hbehind hd

end Framed

/-- The content is a pipe alone, or one in front of a gap. -/
def LeadsWithPipe (content : Text) : Prop :=
  content.head? = some '|' ∧ ∀ c, content[1]? = some c → isGap c = true

/-- The pipe has white space or the edge of the line behind it, and white space or the opening
pipe in front. -/
structure LeadingPipe (body : Text) (i : Nat) : Prop where
  pipe : body[i]? = some '|'
  behind : ∀ c, body[i + 1]? = some c → Text.isBlank c = true
  before : ∃ j c, i = j + 1 ∧ body[j]? = some c ∧ (OpensAt body j ∨ Text.isBlank c = true)

theorem Separator.head {pipeForm : Bool} {separator rest : Text}
    (h : Separator pipeForm separator rest) {c : Char}
    (hc : (separator ++ rest).head? = some c) : isGap c = true := by
  cases h with
  | finish => cases hc
  | gap hne hgap =>
    obtain ⟨d, gap, rfl⟩ := List.exists_cons_of_ne_nil hne
    obtain rfl : d = c := by simpa using hc
    exact hgap d List.mem_cons_self
  | pipe hne hgap =>
    obtain ⟨d, gap, rfl⟩ := List.exists_cons_of_ne_nil hne
    obtain rfl : d = c := by simpa using hc
    exact hgap d List.mem_cons_self

theorem Separator.last {pipeForm : Bool} {separator rest : Text}
    (h : Separator pipeForm separator rest) (hrest : rest ≠ []) :
    ∃ c, separator.getLast? = some c ∧ isGap c = true := by
  cases h with
  | finish => exact absurd rfl hrest
  | gap hne hgap =>
    exact ⟨separator.getLast hne, List.getLast?_eq_some_getLast hne, hgap _ (List.getLast_mem hne)⟩
  | @pipe gap behind _ hne hgap hbehind hend =>
    have hbehind' : behind ≠ [] := fun hnil => hrest (hend hnil)
    refine ⟨behind.getLast hbehind', ?_, hbehind _ (List.getLast_mem hbehind')⟩
    rw [List.getLast?_append_cons, List.getLast?_cons, List.getLast?_eq_some_getLast hbehind']
    rfl

theorem Layout.exists_between {pipeForm : Bool} {number column : Nat} {t : Text}
    {cells : List Cell} (h : Layout pipeForm number column t cells) {cell : Cell}
    (hcell : cell ∈ cells) : ∃ lead behind, t = lead ++ cell.content ++ behind ∧
      cell.span.start.column = column + lead.length ∧
      (∀ c, lead.getLast? = some c → Text.isBlank c = true) ∧
      ∀ c, behind.head? = some c → Text.isBlank c = true := by
  induction h with
  | nil => cases hcell
  | @cons column stretch separator rest cells hne hfree hseparator hrest ih =>
    rcases List.mem_cons.1 hcell with rfl | hcell
    · obtain ⟨lead, behind, hstretch, hspan, hlead, hbehind⟩ := exists_cell number column stretch
      refine ⟨lead, behind ++ separator ++ rest, ?_, by rw [hspan]; rfl,
        fun c hc => hlead c (List.mem_of_getLast? hc), fun c hc => ?_⟩
      · conv_lhs => rw [hstretch]
        simp
      · cases behind with
        | nil => exact isBlank_of_isGap (hseparator.head hc)
        | cons d behind =>
          obtain rfl : d = c := by simpa using hc
          exact hbehind d List.mem_cons_self
    · obtain ⟨lead, behind, hsplit, hstart, hlead, hbehind⟩ := ih hcell
      refine ⟨stretch ++ separator ++ lead, behind, ?_, ?_, fun c hc => ?_, hbehind⟩
      · rw [hsplit]
        simp
      · rw [hstart, List.length_append, List.length_append, Nat.add_assoc, Nat.add_assoc,
          Nat.add_assoc]
      · rw [List.getLast?_append] at hc
        cases hlast : lead.getLast? with
        | some d =>
          rw [hlast] at hc
          exact hlead c (hlast.trans hc)
        | none =>
          have hrestne : rest ≠ [] := by
            rintro rfl
            rw [hrest.eq_nil] at hcell
            cases hcell
          obtain ⟨d, hd, hgap⟩ := hseparator.last hrestne
          rw [hlast, List.getLast?_append, hd] at hc
          obtain rfl : d = c := by simpa using hc
          exact isBlank_of_isGap hgap

theorem Framed.leadingPipe {body blanks region back : Text} {number : Nat}
    (h : Framed body blanks region back) {cell : Cell}
    (hcell : cell ∈ cells true number (blanks.length + 1) region)
    (hleads : LeadsWithPipe cell.content) : LeadingPipe body cell.span.start.column := by
  obtain ⟨lead, behind, hsplit, hstart, hlead, hbehind⟩ :=
    (layout_cells true number (blanks.length + 1) region).exists_between hcell
  obtain ⟨more, hcontent⟩ : ∃ more, cell.content = '|' :: more := List.head?_eq_some_iff.1 hleads.1
  have hnext := hleads.2
  rw [hcontent] at hsplit hnext
  have hat (n : Nat) :
      body[blanks.length + 1 + lead.length + n]? = ('|' :: more ++ behind ++ back)[n]? := by
    rw [Nat.add_assoc, h.getElem?_behind, hsplit, List.append_assoc, List.append_assoc,
      Text.getElem?_add, ← List.append_assoc]
  rw [hstart]
  refine ⟨hat 0, fun c hc => ?_, ?_⟩
  · rw [hat] at hc
    cases more with
    | cons d more =>
      obtain rfl : d = c := by simpa using hc
      exact isBlank_of_isGap (hnext d rfl)
    | nil =>
      cases behind with
      | cons d behind =>
        obtain rfl : d = c := by simpa using hc
        exact hbehind d rfl
      | nil =>
        obtain - | ⟨hregion, -⟩ := h.closing
        · cases hc
        · cases hregion '|' (by rw [hsplit]; simp)
  · rcases List.eq_nil_or_concat lead with rfl | ⟨front, last, rfl⟩
    · have hopens : OpensAt body blanks.length := h.opensAt_iff.2 rfl
      exact ⟨blanks.length, '|', rfl, hopens.1, .inl hopens⟩
    · rw [List.concat_eq_append] at hsplit hlead ⊢
      refine ⟨blanks.length + 1 + front.length, last, by simp [Nat.add_assoc], ?_,
        .inr (hlead last (by simp))⟩
      rw [h.getElem?_behind, hsplit]
      simp

end Segment

open Segment in
/-- In pipe form, the cells hold a pipe with gaps around it exactly if it neither opens nor closes
the row and a separator took in its gap, or a tab follows it behind a single space. Only such
pipes, those right behind the opening pipe and those next to other white space can lead a cell. -/
theorem Row.covered_read_iff (number : Nat) {t : Text}
    (hform : inPipeForm (uncommented false t) = true) :
    (∀ i, Spaced (uncommented false t) i →
      (Covered (Row.read number t).cells i ↔
        ¬ OpensAt (uncommented false t) i ∧ ¬ ClosesAt (uncommented false t) i ∧
          (SharesGap (uncommented false t) (fun j => ¬ OpensAt (uncommented false t) j ∧
              ¬ Covered (Row.read number t).cells j) i ∨
            BeforeTab (uncommented false t) i))) ∧
      ∀ cell ∈ (Row.read number t).cells, LeadsWithPipe cell.content →
        LeadingPipe (uncommented false t) cell.span.start.column := by
  obtain ⟨blanks, region, back, hframed, hline⟩ := exists_framed number hform
  have hcells : (Row.read number t).cells =
      Segment.cells true number (blanks.length + 1) region := hline
  rw [hcells]
  exact ⟨fun i => hframed.covered_iff, fun cell => hframed.leadingPipe⟩

theorem Row.cells_read_empty_cell : (Row.read 0 "| a | | b |".toList).cells =
    [⟨"a".toList, .onLine 0 2 3⟩, ⟨"| b".toList, .onLine 0 6 9⟩] := by cbv

theorem Segment.leadsWithPipe_empty_cell : LeadsWithPipe "| b".toList := by
  refine ⟨rfl, fun c hc => ?_⟩
  cases hc
  decide

open Segment in
/-- The pipe behind an empty cell shares its gap with the separator before that cell. -/
theorem Row.covered_read_empty_cell :
    inPipeForm (uncommented false "| a | | b |".toList) = true ∧
      Spaced "| a | | b |".toList 6 ∧ Covered (Row.read 0 "| a | | b |".toList).cells 6 ∧
      LeadingPipe "| a | | b |".toList 6 := by
  have hform : inPipeForm (uncommented false "| a | | b |".toList) = true := by decide
  have hread := Row.covered_read_iff 0 hform
  have hbody : uncommented false "| a | | b |".toList = "| a | | b |".toList := by decide
  rw [hbody] at hread
  have hspaced : Spaced "| a | | b |".toList 6 := by
    refine ⟨rfl, fun j hj c hc => ?_, fun c hc => ?_⟩
    · obtain rfl := Nat.succ.inj hj
      cases hc
      rfl
    · cases hc
      rfl
  have hopens {i : Nat} (hi : 2 < i) : ¬ OpensAt "| a | | b |".toList i :=
    fun h => absurd (h.2 2 hi 'a' rfl) (by decide)
  have hseparates : ¬ Covered (Row.read 0 "| a | | b |".toList).cells 4 := by
    rw [Row.cells_read_empty_cell]
    rintro ⟨cell, hcell, hstart, hstop⟩
    rcases List.mem_cons.1 hcell with rfl | hcell
    · exact absurd hstop (by decide)
    · obtain rfl := List.mem_singleton.1 hcell
      exact absurd hstart (by decide)
  refine ⟨hform, hspaced, (hread.1 6 hspaced).2 ⟨hopens (by decide), ?_, .inl ?_⟩,
    hread.2 ⟨"| b".toList, .onLine 0 6 9⟩ ?_ leadsWithPipe_empty_cell⟩
  · exact fun h => absurd (h.2.1 8 (by decide) 'b' rfl) (by decide)
  · refine ⟨4, by decide, rfl, ⟨hopens (by decide), hseparates⟩, fun k hk hk' c hc => ?_⟩
    obtain rfl : k = 5 := by omega
    cases hc
    rfl
  · rw [Row.cells_read_empty_cell]
    simp

open Segment in
/-- Not every cell of a line in pipe form is free of leading pipes. -/
theorem Row.leadsWithPipe_read_empty_cell :
    ¬ ∀ number t, inPipeForm (uncommented false t) = true →
      ∀ cell ∈ (Row.read number t).cells, ¬ LeadsWithPipe cell.content := by
  intro h
  refine h 0 "| a | | b |".toList (by decide) ⟨"| b".toList, .onLine 0 6 9⟩ ?_
    leadsWithPipe_empty_cell
  rw [Row.cells_read_empty_cell]
  simp

end SuiteIndex
