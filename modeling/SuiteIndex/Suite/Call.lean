import SuiteIndex.Suite.Value
import SuiteIndex.Text.Lowercase

/-! # Reading calls

The first cell of a call names the keyword, the others are its arguments. Some
keywords run other keywords: from a fixed argument on, their cells are a call of
their own, or a sequence of calls with separators in between.
-/

namespace SuiteIndex

namespace Call

/-- How the cells behind a keyword are to be read. -/
inductive Shape where
  /-- Every cell is a value. -/
  | values
  /-- After this many values the remaining cells are a call. -/
  | callAfter (count : Nat)
  /-- The cells are several calls. -/
  | sequence
deriving DecidableEq

/-- Keywords that run the keyword in their first argument. -/
def runFirst : List Text := [
  "run keyword",
  "run keyword and continue on failure",
  "run keyword and ignore error",
  "run keyword and return",
  "run keyword and return status",
  "run keyword and warn on failure",
  "run keyword if all critical tests passed",
  "run keyword if all tests passed",
  "run keyword if any critical tests failed",
  "run keyword if any tests failed",
  "run keyword if test failed",
  "run keyword if test passed",
  "run keyword if timeout occurred"].map String.toList

/-- Keywords that run the keyword in their second argument. -/
def runSecond : List Text := [
  "run keyword and expect error",
  "run keyword and return if",
  "run keyword if",
  "run keyword unless",
  "repeat keyword"].map String.toList

/-- Keywords that run the keyword in their third argument. -/
def runThird : List Text := ["wait until keyword succeeds"].map String.toList

def runSeveral : Text := "run keywords".toList

/-- The shape of the arguments of the keyword of this name, whatever its case. -/
def Shape.ofName (name : Text) : Shape :=
  let key := Text.lower name
  if runFirst.contains key then .callAfter 0
  else if runSecond.contains key then .callAfter 1
  else if runThird.contains key then .callAfter 2
  else if key = runSeveral then .sequence
  else .values

def isSeparator (cell : Cell) : Bool :=
  cell.content = "AND".toList

/-- The cells before the first separator, and every separator with the cells
between it and the next one. -/
def runs : List Cell → List Cell × List (Cell × List Cell)
  | [] => ([], [])
  | cell :: rest =>
    let (first, others) := runs rest
    if isSeparator cell then ([], (cell, first) :: others) else (cell :: first, others)

theorem length_runs_fst (cells : List Cell) : (runs cells).1.length ≤ cells.length := by
  induction cells with
  | nil => simp [runs]
  | cons cell rest ih =>
    simp only [runs]
    split <;> simp; exact ih

theorem length_of_mem_runs (cells : List Cell) :
    ∀ run ∈ (runs cells).2, run.2.length < cells.length := by
  induction cells with
  | nil => simp [runs]
  | cons cell rest ih =>
    intro run h
    simp only [runs] at h
    split at h
    · rcases List.mem_cons.1 h with rfl | h
      · exact Nat.lt_succ_of_le (length_runs_fst rest)
      · exact Nat.lt_succ_of_lt (ih run h)
    · exact Nat.lt_succ_of_lt (ih run h)

def embed (call? : Option Call) : List Expression :=
  (call?.map toExpression).toList

/-- Read a call. Only an empty list of cells is none. -/
def ofCells? : List Cell → Option Call
  | [] => none
  | first :: rest =>
    let callee := Identifier.ofCell first
    let args := match Shape.ofName callee.name with
      | .values => rest.map Expression.ofCell
      | .callAfter count =>
        (rest.take count).map Expression.ofCell ++ embed (ofCells? (rest.drop count))
      | .sequence =>
        if rest.any isSeparator then
          embed (ofCells? (runs rest).1) ++ (runs rest).2.attach.flatMap fun ⟨run, _⟩ =>
            .literal (.ofCell run.1) :: embed (ofCells? run.2)
        else rest.attach.flatMap fun ⟨cell, _⟩ => embed (ofCells? [cell])
    some ⟨callee, args, Cell.reach first rest⟩
termination_by cells => cells.length
decreasing_by
  · simp only [List.length_drop, List.length_cons]; omega
  · exact Nat.lt_succ_of_le (length_runs_fst rest)
  · rename_i h
    exact Nat.lt_succ_of_lt (length_of_mem_runs rest run h)
  · rename_i h
    exact Nat.succ_lt_succ (List.length_pos_of_mem h)

end Call

end SuiteIndex
