import SuiteIndex.Proofs.Suite.BlankLines

/-! # Lines and their endings

The rows of a text are those of its lines, numbered from zero. From the first header on each
of them belongs to exactly one table, as its header or below it. How the lines end plays no
part: a text means the same suite with line feeds, with carriage returns, or with both.
-/

namespace SuiteIndex

namespace Text

/-- What ends a line. -/
inductive Ending where
  | feed
  | carriage
  | both

def Ending.text : Ending → Text
  | feed => ['\n']
  | carriage => ['\r']
  | both => ['\r', '\n']

/-- A carriage return ends a line alone only if no line feed follows. -/
def Ending.Fits (ending : Ending) (rest : Text) : Prop :=
  match ending with
  | carriage => rest.head? ≠ some '\n'
  | feed | both => True

/-- The lines of a text: the pieces between the endings. An ending at the very end opens no
further line. -/
inductive HasLines : Text → List Text → Prop where
  | unended {t : Text} (ht : t.IsLine) : HasLines t [t]
  | last {t : Text} (ht : t.IsLine) (ending : Ending) : HasLines (t ++ ending.text) [t]
  | next {t rest : Text} {ls : List Text} (ht : t.IsLine) {ending : Ending}
    (hending : ending.Fits rest) (hne : rest ≠ []) (hrest : HasLines rest ls) :
    HasLines (t ++ ending.text ++ rest) (t :: ls)

theorem consFirst_ne_nil (c : Char) (ls : List Text) : consFirst c ls ≠ [] := by
  cases ls <;> exact List.cons_ne_nil _ _

theorem pieces_ne_nil (t : Text) : pieces t ≠ [] := by
  fun_cases pieces t with
  | case1 => exact List.cons_ne_nil _ _
  | case2 => exact List.cons_ne_nil _ _
  | case3 => exact List.cons_ne_nil _ _
  | case4 => exact consFirst_ne_nil _ _

theorem consFirst_ne_blank (c : Char) (ls : List Text) : consFirst c ls ≠ [[]] := by
  cases ls <;> simp [consFirst]

theorem pieces_ne_blank {t : Text} (h : t ≠ []) : pieces t ≠ [[]] := by
  fun_cases pieces t with
  | case1 => exact absurd rfl h
  | case2 t => simp [pieces_ne_nil]
  | case3 c t => simp [pieces_ne_nil]
  | case4 c t => exact consFirst_ne_blank c (pieces t)

theorem pieces_feed (t : Text) : pieces ('\n' :: t) = [] :: pieces t := by
  simp [pieces]

theorem pieces_both (t : Text) : pieces ('\r' :: '\n' :: t) = [] :: pieces t := by
  rw [pieces]

theorem pieces_carriage {t : Text} (h : t.head? ≠ some '\n') :
    pieces ('\r' :: t) = [] :: pieces t := by
  rw [pieces]
  · simp
  · rintro rest - rfl
    exact h rfl

theorem pieces_ending {ending : Ending} {rest : Text} (h : ending.Fits rest) :
    pieces (ending.text ++ rest) = [] :: pieces rest := by
  cases ending with
  | feed => exact pieces_feed rest
  | carriage => exact pieces_carriage h
  | both => exact pieces_both rest

theorem IsLine.pieces_append_ending {t : Text} (ht : t.IsLine) {ending : Ending} {rest : Text}
    (h : ending.Fits rest) : pieces (t ++ ending.text ++ rest) = t :: pieces rest := by
  rw [List.append_assoc]
  induction t with
  | nil => exact pieces_ending h
  | cons c t ih =>
    simp only [IsLine, List.mem_cons, not_or] at ht
    rw [List.cons_append, pieces_cons_of_ne (Ne.symm ht.1.1) (Ne.symm ht.2.1), ih ⟨ht.1.2, ht.2.2⟩]
    rfl

theorem dropFinalEmpty_cons (t : Text) {ls : List Text} (hne : ls ≠ []) (hblank : ls ≠ [[]]) :
    dropFinalEmpty (t :: ls) = t :: dropFinalEmpty ls := by
  cases ls with
  | nil => exact absurd rfl hne
  | cons u rest =>
    rw [dropFinalEmpty, if_neg]
    simpa using hblank

theorem Ending.fits_nil (ending : Ending) : ending.Fits [] := by
  cases ending <;> simp [Fits]

theorem HasLines.lines_eq {t : Text} {ls : List Text} (h : HasLines t ls) : lines t = ls := by
  induction h with
  | unended ht => rw [lines, ht.pieces_eq, dropFinalEmpty]
  | @last t ht ending =>
    have hpieces := ht.pieces_append_ending ending.fits_nil
    rw [List.append_nil] at hpieces
    rw [lines, hpieces]
    rfl
  | next ht hending hne _ ih =>
    rw [lines, ht.pieces_append_ending hending,
      dropFinalEmpty_cons _ (pieces_ne_nil _) (pieces_ne_blank hne)]
    exact congrArg _ ih

theorem isLine_or_exists_ending (t : Text) :
    t.IsLine ∨ ∃ first ending rest, t = first ++ Ending.text ending ++ rest ∧ first.IsLine ∧
      ending.Fits rest := by
  induction t with
  | nil => exact .inl ⟨List.not_mem_nil, List.not_mem_nil⟩
  | cons c t ih =>
    by_cases hfeed : c = '\n'
    · exact .inr ⟨[], .feed, t, by rw [hfeed]; rfl, by decide, trivial⟩
    by_cases hcarriage : c = '\r'
    · by_cases hboth : t.head? = some '\n'
      · obtain ⟨rest, rfl⟩ := List.head?_eq_some_iff.1 hboth
        exact .inr ⟨[], .both, rest, by rw [hcarriage]; rfl, by decide, trivial⟩
      · exact .inr ⟨[], .carriage, t, by rw [hcarriage]; rfl, by decide, hboth⟩
    have hcons {line : Text} (h : line.IsLine) : IsLine (c :: line) := by
      simp only [IsLine, List.mem_cons, not_or]
      exact ⟨⟨Ne.symm hcarriage, h.1⟩, Ne.symm hfeed, h.2⟩
    rcases ih with hline | ⟨first, ending, rest, rfl, hfirst, hending⟩
    · exact .inl (hcons hline)
    · exact .inr ⟨c :: first, ending, rest, rfl, hcons hfirst, hending⟩

theorem Ending.text_ne_nil (ending : Ending) : ending.text ≠ [] := by
  cases ending <;> exact List.cons_ne_nil _ _

theorem exists_hasLines (t : Text) : ∃ ls, HasLines t ls := by
  induction hlength : t.length using Nat.strong_induction_on generalizing t with
  | h length ih =>
    rcases isLine_or_exists_ending t with hline | ⟨first, ending, rest, rfl, hfirst, hending⟩
    · exact ⟨[t], .unended hline⟩
    · by_cases hrest : rest = []
      · subst hrest
        rw [List.append_nil]
        exact ⟨[first], .last hfirst ending⟩
      · have hpositive := List.length_pos_iff.2 ending.text_ne_nil
        simp only [List.length_append] at hlength
        obtain ⟨ls, hls⟩ := ih rest.length (by omega) rest rfl
        exact ⟨first :: ls, .next hfirst hending hrest hls⟩

theorem hasLines_iff {t : Text} {ls : List Text} : HasLines t ls ↔ lines t = ls := by
  constructor
  · exact HasLines.lines_eq
  · rintro rfl
    obtain ⟨ls, hls⟩ := exists_hasLines t
    rwa [hls.lines_eq]

/-- The text with another ending in place of every line feed. -/
def endedBy (ending : Ending) (t : Text) : Text :=
  t.flatMap fun c => if c = '\n' then ending.text else [c]

theorem Ending.fits_of_not_mem {t : Text} (h : '\n' ∉ t) (ending : Ending) : ending.Fits t := by
  cases ending with
  | carriage => exact fun hhead => h (List.mem_of_mem_head? hhead)
  | feed | both => trivial

theorem not_mem_endedBy_carriage (t : Text) : '\n' ∉ endedBy .carriage t := by
  intro h
  obtain ⟨c, -, hc⟩ := List.mem_flatMap.1 h
  split at hc
  · simp [Ending.text] at hc
  · rename_i hfeed
    exact hfeed (List.mem_singleton.1 hc).symm

theorem Ending.fits_endedBy (ending : Ending) (t : Text) : ending.Fits (endedBy ending t) := by
  cases ending with
  | carriage => exact fits_of_not_mem (not_mem_endedBy_carriage t) .carriage
  | feed | both => trivial

/-- Another ending does not change the pieces of a text without carriage returns. -/
theorem pieces_endedBy (ending : Ending) {t : Text} (h : '\r' ∉ t) :
    pieces (endedBy ending t) = pieces t := by
  induction t with
  | nil => rfl
  | cons c t ih =>
    rw [List.mem_cons, not_or] at h
    by_cases hc : c = '\n'
    · subst hc
      have hcut : endedBy ending ('\n' :: t) = ending.text ++ endedBy ending t := rfl
      rw [hcut, pieces_ending (ending.fits_endedBy t), ih h.2, pieces_feed]
    · have hkept : endedBy ending (c :: t) = c :: endedBy ending t := by simp [endedBy, hc]
      rw [hkept, pieces_cons_of_ne (Ne.symm h.1) hc, pieces_cons_of_ne (Ne.symm h.1) hc, ih h.2]

end Text

namespace Row

theorem readFrom_eq_mapIdx (number : Nat) (lines : List Text) :
    readFrom number lines = lines.mapIdx fun i line => Row.read (number + i) line := by
  induction lines generalizing number with
  | nil => rfl
  | cons line rest ih =>
    rw [readFrom, ih, List.mapIdx_cons]
    simp only [Nat.add_zero, Nat.add_assoc, Nat.add_comm 1]

/-- The first cell that is not empty begins with a star. -/
def BeginsWithStar (row : Row) : Prop :=
  ∃ empties cell others rest, row.cells = empties ++ cell :: others ∧
    (∀ other ∈ empties, other.content = []) ∧ cell.content = '*' :: rest

theorem isHeader_iff (row : Row) : row.isHeader = true ↔ row.BeginsWithStar := by
  constructor
  · intro h
    have hempty : row.isEmpty ≠ true := fun hempty => by
      simp [isHeader_of_isEmpty hempty] at h
    obtain ⟨empties, cell, others, hfirst⟩ := exists_firstFilled (Bool.eq_false_iff.2 hempty)
    rw [isHeader, hfirst.firstFilled?_eq] at h
    dsimp only at h
    rw [Text.startsWith_singleton, decide_eq_true_iff, List.head?_eq_some_iff] at h
    obtain ⟨rest, hrest⟩ := h
    exact ⟨empties, cell, others, rest, hfirst.cells, hfirst.empties, hrest⟩
  · rintro ⟨empties, cell, others, rest, hcells, hempties, hrest⟩
    have hfirst : row.FirstFilled empties cell others := ⟨hcells, hempties, by simp [hrest]⟩
    rw [isHeader, hfirst.firstFilled?_eq]
    simp [Text.startsWith_singleton, hrest]

end Row

namespace Table

def allRows (table : Table) : List Row :=
  table.header :: table.rows

theorem isHeader_collect (rows : List Row) :
    (∀ row ∈ (collect rows).1, row.isHeader = false) ∧
      ∀ table ∈ (collect rows).2, table.header.isHeader = true ∧
        ∀ row ∈ table.rows, row.isHeader = false := by
  induction rows with
  | nil => simp [collect]
  | cons row rows ih =>
    by_cases h : row.isHeader = true
    · simp only [collect, h, if_true, List.forall_mem_cons]
      exact ⟨by simp, ⟨trivial, ih.1⟩, ih.2⟩
    · simp only [collect, h, if_false, List.forall_mem_cons, Bool.false_eq_true]
      exact ⟨⟨by simp, ih.1⟩, ih.2⟩

theorem read_endedBy (ending : Text.Ending) {text : Text} (h : '\r' ∉ text) :
    read (text.endedBy ending) = read text := by
  rw [read, read, Text.lines, Text.lines, Text.pieces_endedBy ending h]

/-- The rows of the numbered lines are distributed over the tables from the first header on,
in order and each once, and every header opens a table. Line feeds may be replaced by other
endings. -/
theorem read_partitions_lines (text : Text) :
    (∀ ls, text.HasLines ls ↔ Text.lines text = ls) ∧
      (∃ above, (Text.lines text).mapIdx Row.read = above ++ (read text).flatMap allRows ∧
        ∀ row ∈ above, ¬ row.BeginsWithStar) ∧
      (∀ table ∈ read text, table.header.BeginsWithStar ∧
        ∀ row ∈ table.rows, ¬ row.BeginsWithStar) ∧
      ('\r' ∉ text → ∀ (ending : Text.Ending) (moduleName : Text),
        Suite.read moduleName (text.endedBy ending) = Suite.read moduleName text) := by
  have hrows : (Text.lines text).mapIdx Row.read = Row.readFrom 0 (Text.lines text) := by
    rw [Row.readFrom_eq_mapIdx]
    simp only [Nat.zero_add]
  obtain ⟨habove, hheaders⟩ := isHeader_collect (Row.readFrom 0 (Text.lines text))
  simp only [← Row.isHeader_iff, Bool.not_eq_true]
  refine ⟨fun ls => Text.hasLines_iff, ⟨_, ?_, habove⟩, hheaders, fun h ending moduleName => ?_⟩
  · rw [hrows]
    exact (collect_flatten _).symm
  · rw [Suite.read, read_endedBy ending h]
    rfl

/-- An empty line is a line, and the line feed at the end opens none. -/
theorem read_partitions_two_headers :
    let text : Text := "x\n*Keyword\n*** Keywords ***\n\nGreet\n".toList
    '\r' ∉ text ∧
      text.HasLines ["x".toList, "*Keyword".toList, "*** Keywords ***".toList, [], "Greet".toList] ∧
      ((read text).map fun table => table.rows.length) = [0, 2] ∧
      Suite.read "m".toList "x\r\n*Keyword\r\n*** Keywords ***\r\n\r\nGreet\r\n".toList =
        Suite.read "m".toList text := by
  intro text
  have hreturn : '\r' ∉ text := by decide
  obtain ⟨hlines, -, -, hending⟩ := read_partitions_lines text
  have hread : ((read text).map fun table => table.rows.length) = [0, 2] := by
    dsimp only [text]
    decide +kernel
  exact ⟨hreturn, (hlines _).2 rfl, hread, hending hreturn .both "m".toList⟩

end Table

end SuiteIndex
