import SuiteIndex.Proofs.Suite.Wording

/-! # Calls in a sequence

The keyword that runs several keywords takes its cells as a sequence of calls. Where a separator
stands among them, the sequence is split at every separator: each run of cells in between is a
call, an empty run is none, and the separators stay in their places as plain text. Without any
separator every cell is a call of its own. No separator gets into a call either way.
-/

namespace SuiteIndex.Call

theorem splitOnP_isSeparator (cells : List Cell) :
    cells.splitOnP isSeparator = (runs cells).1 :: (runs cells).2.map Prod.snd := by
  induction cells with
  | nil => rfl
  | cons cell rest ih =>
    rw [List.splitOnP_cons_eq_if_modifyHead, ih, runs]
    split <;> rfl

theorem filter_isSeparator (cells : List Cell) :
    cells.filter isSeparator = (runs cells).2.map Prod.fst := by
  induction cells with
  | nil => rfl
  | cons cell rest ih =>
    rw [runs]
    by_cases h : isSeparator cell = true <;> simp [h, ih]

/-- The cells of the calls in a sequence, with an empty piece where there is none. -/
def pieces (cells : List Cell) : List (List Cell) :=
  if cells.any isSeparator then cells.splitOnP isSeparator else cells.map ([·])

theorem isSeparator_of_mem_splitOnP (cells : List Cell) :
    ∀ piece ∈ cells.splitOnP isSeparator, ∀ cell ∈ piece, isSeparator cell = false := by
  rw [splitOnP_isSeparator, List.forall_mem_cons]
  induction cells with
  | nil => simp [runs]
  | cons cell rest ih =>
    rw [runs]
    by_cases h : isSeparator cell = true
    · simpa [h] using ih
    · simpa [h] using ih

theorem isSeparator_of_mem_pieces (cells : List Cell) :
    ∀ piece ∈ pieces cells, ∀ cell ∈ piece, isSeparator cell = false := by
  unfold pieces
  split
  · exact isSeparator_of_mem_splitOnP cells
  · rename_i h
    simpa using h

theorem ofName_eq_sequence {name : Text} (h : Text.lower name = runSeveral) :
    Shape.ofName name = .sequence := by
  have hfirst : runSeveral ∉ runFirst := by decide
  have hsecond : runSeveral ∉ runSecond := by decide
  have hthird : runSeveral ∉ runThird := by decide
  simp [Shape.ofName, h, hfirst, hsecond, hthird]

theorem ofCells?_singleton (cell : Cell) :
    ofCells? [cell] = some ⟨.ofCell cell, [], cell.location⟩ := by
  have hargs (shape : Shape) : argsOf [] shape = [] := by
    cases shape with
    | values => rfl
    | callAfter count => simp [argsOf, ofCells?, embed]
    | sequence => rfl
  rw [ofCells?_cons, hargs]
  rfl

theorem separator_not_mem_texts {cells : List Cell} {call : Call} (h : ofCells? cells = some call)
    (hcells : ∀ cell ∈ cells, isSeparator cell = false) : "AND".toList ∉ call.texts := by
  have hall := allWrittenIn_embed cells
  rw [h] at hall
  have htexts : call.texts = cells.map Cell.content := hall.of_single.texts_eq
  rw [htexts, List.mem_map]
  rintro ⟨cell, hcell, hcontent⟩
  exact of_decide_eq_false (hcells cell hcell) hcontent

theorem filterMap_call?_embed (call? : Option Call) :
    (embed call?).filterMap Expression.call? = call?.toList := by
  cases call? <;> rfl

theorem map_some_flatMap_ofCells? (groups : List (List Cell)) :
    (groups.flatMap fun cells => (ofCells? cells).toList).map some =
      (groups.filter (· ≠ [])).map ofCells? := by
  induction groups with
  | nil => rfl
  | cons cells groups ih =>
    cases cells with
    | nil => simpa [ofCells?] using ih
    | cons first rest => simpa [ofCells?_cons] using ih

theorem argsOf_sequence {rest : List Cell} (h : rest.any isSeparator = true) :
    argsOf rest .sequence =
      (List.zipWith (· ++ ·)
        ((rest.splitOnP isSeparator).map fun cells => embed (ofCells? cells))
        ((rest.filter isSeparator).map (fun cell => [.literal (.ofCell cell)]) ++ [[]])).flatten := by
  have hzip (first : List Cell) (others : List (Cell × List Cell)) :
      (List.zipWith (· ++ ·)
        ((first :: others.map Prod.snd).map fun cells => embed (ofCells? cells))
        ((others.map Prod.fst).map (fun cell => [Expression.literal (.ofCell cell)]) ++
          [[]])).flatten =
      embed (ofCells? first) ++ others.flatMap fun run =>
        .literal (.ofCell run.1) :: embed (ofCells? run.2) := by
    induction others generalizing first with
    | nil => simp
    | cons run others ih => simpa using ih run.2
  rw [splitOnP_isSeparator, filter_isSeparator, hzip, argsOf, if_pos h]

theorem filterMap_argsOf_sequence (rest : List Cell) :
    (argsOf rest .sequence).filterMap Expression.call? =
      (pieces rest).flatMap fun cells => (ofCells? cells).toList := by
  have hliteral (l : Literal) : (Expression.literal l).call? = none := rfl
  rw [argsOf, pieces]
  split
  · rw [splitOnP_isSeparator]
    simp [List.filterMap_flatMap, hliteral, filterMap_call?_embed, List.flatMap_map]
  · simp [List.filterMap_flatMap, filterMap_call?_embed, List.flatMap_map]

theorem argsOf_sequence_of_all {rest : List Cell} (h : rest.any isSeparator = false) :
    argsOf rest .sequence = rest.map fun cell => .call (.ofCell cell) [] cell.location := by
  have hread (cell : Cell) :
      embed (ofCells? [cell]) = [.call (.ofCell cell) [] cell.location] := by
    rw [ofCells?_singleton]
    rfl
  rw [argsOf, h, if_neg Bool.false_ne_true, List.map_eq_flatMap]
  exact List.flatMap_congr fun cell _ => hread cell

/-- A keyword that runs several keywords takes every run of cells between separators as a call,
and every separator as text in its place; without separators it takes every cell as a call of
its own. No call in it holds a separator at any depth. -/
theorem runs_several_calls {first : Cell} (rest : List Cell)
    (hname : Text.lower (Identifier.ofCell first).name = runSeveral) :
    ∃ call, ofCells? (first :: rest) = some call ∧ call.callee = .ofCell first ∧
      ((∃ cell ∈ rest, cell.content = "AND".toList) →
        call.nested.map some =
          ((rest.splitOnP (·.content = "AND".toList)).filter (· ≠ [])).map ofCells? ∧
        call.args = (List.zipWith (· ++ ·)
          ((rest.splitOnP (·.content = "AND".toList)).map fun cells => embed (ofCells? cells))
          ((rest.filter (·.content = "AND".toList)).map
            (fun cell => [.literal (.ofCell cell)]) ++ [[]])).flatten) ∧
      ((∀ cell ∈ rest, cell.content ≠ "AND".toList) →
        call.nested.map some = rest.map (fun cell => ofCells? [cell]) ∧
        call.args = rest.map fun cell => .call (.ofCell cell) [] cell.location) ∧
      ∀ inner ∈ call.nested, "AND".toList ∉ inner.texts := by
  have hshape := ofName_eq_sequence hname
  refine ⟨_, ofCells?_cons first rest, rfl, ?_⟩
  rw [hshape]
  have hnested := map_some_flatMap_ofCells? (pieces rest)
  rw [← filterMap_argsOf_sequence] at hnested
  refine ⟨fun ⟨cell, hcell, hcontent⟩ => ?_, fun hcells => ?_, fun inner hinner => ?_⟩
  · have hany : rest.any isSeparator = true :=
      List.any_eq_true.2 ⟨cell, hcell, decide_eq_true hcontent⟩
    rw [pieces, if_pos hany] at hnested
    exact ⟨hnested, argsOf_sequence hany⟩
  · have hany : rest.any isSeparator = false :=
      List.any_eq_false.2 fun cell hcell => by simpa [isSeparator] using hcells cell hcell
    rw [pieces, hany, if_neg Bool.false_ne_true] at hnested
    refine ⟨hnested.trans ?_, argsOf_sequence_of_all hany⟩
    simp [List.filter_map, Function.comp_def]
  · have hmem := List.mem_map_of_mem (f := some) hinner
    rw [nested, hnested] at hmem
    obtain ⟨cells, hcells, hread⟩ := List.mem_map.1 hmem
    exact separator_not_mem_texts hread
      (isSeparator_of_mem_pieces rest cells (List.mem_of_mem_filter hcells))

/-- Empty runs at the front and between two separators are no calls, and a run that begins with
a keyword for several keywords is read as such. -/
theorem runs_several_calls_around_empty_runs :
    let cell (text : String) : Cell := ⟨text.toList, .onLine 0 0 text.length⟩
    let first := cell "BuiltIn.Run KEYWORDS"
    let rest := ["AND", "Log", "a", "AND", "AND", "Run Keyword", "Log", "b"].map cell
    Text.lower (Identifier.ofCell first).name = runSeveral ∧
      ∃ call, ofCells? (first :: rest) = some call ∧
        call.nested.map some = [ofCells? (["Log", "a"].map cell),
          ofCells? (["Run Keyword", "Log", "b"].map cell)] := by
  intro cell first rest
  have hname : Text.lower (Identifier.ofCell first).name = runSeveral := by decide +kernel
  obtain ⟨call, hcall, -, hsplit, -⟩ := runs_several_calls rest hname
  obtain ⟨hnested, -⟩ := hsplit ⟨cell "AND", List.mem_cons_self, rfl⟩
  exact ⟨hname, call, hcall, hnested⟩

end SuiteIndex.Call
