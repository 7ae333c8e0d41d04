import SuiteIndex.Proofs.Suite.Enclosure
import SuiteIndex.Proofs.Suite.Renumbering

/-! # Lines that hold nothing

A suite is read from the rows that are not empty. A line whose row is empty can therefore be
put anywhere into a text, also between a statement and the row that continues it: all it
does is to move everything below it down by one line.
-/

namespace SuiteIndex

namespace Text

def IsLine (t : Text) : Prop :=
  '\r' ∉ t ∧ '\n' ∉ t

instance (t : Text) : Decidable t.IsLine :=
  inferInstanceAs (Decidable (_ ∧ _))

theorem pieces_cons_of_ne {c : Char} (hr : c ≠ '\r') (hn : c ≠ '\n') (t : Text) :
    pieces (c :: t) = consFirst c (pieces t) := by
  rw [pieces]
  · simp [hr, hn]
  · rintro _ rfl
    exact absurd rfl hr

theorem IsLine.pieces_eq {t : Text} (h : t.IsLine) : pieces t = [t] := by
  induction t with
  | nil => rfl
  | cons c t ih =>
    simp only [IsLine, List.mem_cons, not_or] at h
    rw [pieces_cons_of_ne (Ne.symm h.1.1) (Ne.symm h.2.1), ih ⟨h.1.2, h.2.2⟩]
    rfl

theorem IsLine.pieces_append {t : Text} (h : t.IsLine) (rest : Text) :
    pieces (t ++ '\n' :: rest) = t :: pieces rest := by
  induction t with
  | nil => simp [pieces]
  | cons c t ih =>
    simp only [IsLine, List.mem_cons, not_or] at h
    rw [List.cons_append, pieces_cons_of_ne (Ne.symm h.1.1) (Ne.symm h.2.1), ih ⟨h.1.2, h.2.2⟩]
    rfl

theorem pieces_join {ls : List Text} (hne : ls ≠ []) (h : ∀ t ∈ ls, t.IsLine) :
    pieces (join ['\n'] ls) = ls := by
  induction ls with
  | nil => exact absurd rfl hne
  | cons t rest ih =>
    have ht := h t List.mem_cons_self
    cases rest with
    | nil => exact ht.pieces_eq
    | cons u rest =>
      rw [join, List.append_assoc, List.singleton_append, ht.pieces_append,
        ih (List.cons_ne_nil _ _) fun t ht => h t (List.mem_cons_of_mem _ ht)]

theorem dropFinalEmpty_cases (ls : List Text) :
    dropFinalEmpty ls = ls ∨ dropFinalEmpty ls ++ [[]] = ls := by
  fun_induction dropFinalEmpty ls with
  | case1 => exact .inl rfl
  | case2 => exact .inl rfl
  | case3 t u rest hempty =>
    simp only [Bool.and_eq_true, List.isEmpty_iff] at hempty
    simp [hempty]
  | case4 t u rest hempty ih =>
    exact ih.imp (congrArg (t :: ·)) (congrArg (t :: ·))

end Text

namespace Row

def filledFrom (number : Nat) (lines : List Text) : List Row :=
  (readFrom number lines).filter (!·.isEmpty)

theorem filledFrom_append (number : Nat) (front back : List Text) :
    filledFrom number (front ++ back) =
      filledFrom number front ++ filledFrom (number + front.length) back := by
  rw [filledFrom, readFrom_append, List.filter_append]
  rfl

theorem filledFrom_of_isEmpty {number : Nat} {line : Text}
    (h : (Row.read number line).isEmpty = true) : filledFrom number [line] = [] := by
  simp [filledFrom, readFrom, h]

theorem filledFrom_nil (number : Nat) : filledFrom number [[]] = [] := by
  apply filledFrom_of_isEmpty
  simp [Row.read, Segment.line, Segment.uncommented, Segment.cells, ofCells, isEmpty]

theorem filledFrom_dropFinalEmpty (number : Nat) (ls : List Text) :
    filledFrom number (Text.dropFinalEmpty ls) = filledFrom number ls := by
  rcases Text.dropFinalEmpty_cases ls with h | h
  · rw [h]
  · conv_rhs => rw [← h, filledFrom_append, filledFrom_nil, List.append_nil]

theorem filledFrom_lines_join {ls : List Text} (h : ∀ t ∈ ls, t.IsLine) :
    filledFrom 0 (Text.lines (Text.join ['\n'] ls)) = filledFrom 0 ls := by
  rw [Text.lines, filledFrom_dropFinalEmpty]
  cases ls with
  | nil => exact filledFrom_nil 0
  | cons t rest => rw [Text.pieces_join (List.cons_ne_nil _ _) h]

theorem filledFrom_renumber {g : Nat → Nat} {number target : Nat} {lines : List Text}
    (h : ∀ i < lines.length, g (number + i) = target + i) :
    filledFrom target lines = (filledFrom number lines).map (renumber g) := by
  have hread : readFrom target lines = (readFrom number lines).map (renumber g) := by
    induction lines generalizing number target with
    | nil => rfl
    | cons line rest ih =>
      have hfirst : g number = target := h 0 (Nat.zero_lt_succ _)
      have hrest (i : Nat) (hi : i < rest.length) : g (number + 1 + i) = target + 1 + i := by
        have := h (i + 1) (Nat.succ_lt_succ hi)
        rwa [Nat.add_right_comm, Nat.add_assoc, Nat.add_right_comm, Nat.add_assoc]
      rw [readFrom, readFrom, List.map_cons, ← read_renumber, hfirst, ih hrest]
  rw [filledFrom, hread, List.filter_map, filledFrom]
  congr 2
  funext row
  simp

/-- The number of a line once another one was put in as number `inserted`. -/
def pushDown (inserted line : Nat) : Nat :=
  if line < inserted then line else line + 1

theorem strictMono_pushDown (inserted : Nat) : StrictMono (pushDown inserted) := by
  intro a b hab
  simp only [pushDown]
  split_ifs <;> omega

theorem filledFrom_insert {above below : List Text} {blank : Text}
    (hblank : (Row.read above.length blank).isEmpty = true) :
    filledFrom 0 (above ++ blank :: below) =
      (filledFrom 0 (above ++ below)).map (renumber (pushDown above.length)) := by
  have habove : filledFrom 0 above =
      (filledFrom 0 above).map (renumber (pushDown above.length)) :=
    filledFrom_renumber fun i hi => by simp [pushDown, hi]
  have hbelow : filledFrom (above.length + 1) below =
      (filledFrom above.length below).map (renumber (pushDown above.length)) :=
    filledFrom_renumber fun i _ => by
      rw [pushDown, if_neg (Nat.not_lt.2 (Nat.le_add_right _ _)), Nat.add_right_comm]
  calc filledFrom 0 (above ++ blank :: below)
      = filledFrom 0 above ++ (filledFrom above.length [blank] ++
          filledFrom (above.length + 1) below) := by
        rw [← List.singleton_append, filledFrom_append, filledFrom_append, Nat.zero_add]
        rfl
    _ = filledFrom 0 above ++ filledFrom (above.length + 1) below := by
        rw [filledFrom_of_isEmpty hblank, List.nil_append]
    _ = (filledFrom 0 (above ++ below)).map (renumber (pushDown above.length)) := by
        rw [filledFrom_append, List.map_append, ← habove, hbelow, Nat.zero_add]

end Row

namespace Suite

theorem addTable_condense (moduleName : Text) (suite : Suite) (table : Table) :
    addTable moduleName suite table.condense = addTable moduleName suite table := by
  have hrows (style : Continuation) :
      Statement.ofRows style table.condense.rows = Statement.ofRows style table.rows :=
    Statement.ofRows_filled style table.rows
  have hname : table.condense.name = table.name := rfl
  simp only [addTable, SettingsTable.ofTable, VariablesTable.ofTable, KeywordsTable.ofTable,
    TestCasesTable.ofTable, Function.ofTable, hrows, hname, Table.span_condense]

theorem spanOf_condense (tables : List Table) : spanOf (tables.map Table.condense) = spanOf tables := by
  cases tables with
  | nil => rfl
  | cons table rest => simp [spanOf, List.foldl_map]

theorem ofTables_filled (moduleName : Text) (rows : List Row) :
    ofTables moduleName (Table.ofRows (rows.filter (!·.isEmpty))) =
      ofTables moduleName (Table.ofRows rows) := by
  simp only [ofTables, Table.ofRows_filled, spanOf_condense, List.foldlM_map, addTable_condense]

theorem read_join (moduleName : Text) {ls : List Text} (h : ∀ t ∈ ls, t.IsLine) :
    read moduleName (Text.join ['\n'] ls) =
      ofTables moduleName (Table.ofRows (Row.filledFrom 0 ls)) := by
  rw [read, Table.read, ← ofTables_filled]
  exact congrArg (fun rows => ofTables moduleName (Table.ofRows rows)) (Row.filledFrom_lines_join h)

/-- Insert a line whose row is empty into a text with at least one table: everything from
there on moves down by one line, and nothing else changes. -/
theorem read_insert_empty_line (moduleName : Text) (above below : List Text) (blank : Text)
    (hlines : ∀ line ∈ above ++ blank :: below, line.IsLine)
    (hblank : (Row.read above.length blank).isEmpty = true)
    (hheader : Table.read (Text.join ['\n'] (above ++ below)) ≠ []) :
    ∃ suite, read moduleName (Text.join ['\n'] (above ++ below)) = .ok suite ∧
      read moduleName (Text.join ['\n'] (above ++ blank :: below)) =
        .ok (suite.renumber (Row.pushDown above.length)) := by
  have hkept : ∀ t ∈ above ++ below, t.IsLine := by
    intro t ht
    apply hlines
    simp only [List.mem_append, List.mem_cons] at ht ⊢
    tauto
  have htables : Table.ofRows (Row.filledFrom 0 (above ++ below)) ≠ [] := by
    rw [← Row.filledFrom_lines_join hkept, Row.filledFrom, Table.ofRows_filled]
    simpa [Table.read] using hheader
  obtain ⟨suite, -, hsuite, -⟩ := exists_nests_read moduleName (Text.join ['\n'] (above ++ below))
  refine ⟨suite, hsuite, ?_⟩
  rw [read_join moduleName hkept] at hsuite
  rw [read_join moduleName hlines, Row.filledFrom_insert hblank, Table.ofRows_renumber,
    ofTables_renumber (Row.strictMono_pushDown _) moduleName htables, hsuite]
  rfl

/-- A comment may stand between a step and the row that continues it. -/
theorem read_insert_comment_in_step :
    ∃ suite, read "m".toList (Text.join ['\n'] (["*** Keywords ***".toList, "Greet".toList,
        "    Log    a".toList] ++ ["    ...    b".toList])) = .ok suite ∧
      read "m".toList (Text.join ['\n'] (["*** Keywords ***".toList, "Greet".toList,
        "    Log    a".toList] ++ "  # c".toList :: ["    ...    b".toList])) =
        .ok (suite.renumber (Row.pushDown 3)) := by
  apply read_insert_empty_line
  · decide
  · decide +kernel
  · decide +kernel

end Suite

end SuiteIndex
