import SuiteIndex.Proofs.Suite.Value
import SuiteIndex.Suite.Body

/-! # Locations of calls and steps

A call reaches over its cells, and the calls among its arguments take cells of their own
from these, so calls nest at every depth.
-/

namespace SuiteIndex
open Node

namespace Call

/-- The arguments of a call of this shape. -/
def argsOf (rest : List Cell) : Shape → List Expression
  | .values => rest.map Expression.ofCell
  | .callAfter count =>
    (rest.take count).map Expression.ofCell ++ embed (ofCells? (rest.drop count))
  | .sequence =>
    if rest.any isSeparator then
      embed (ofCells? (runs rest).1) ++ (runs rest).2.flatMap fun run =>
        .literal (.ofCell run.1) :: embed (ofCells? run.2)
    else rest.flatMap fun cell => embed (ofCells? [cell])

theorem ofCells?_cons (first : Cell) (rest : List Cell) :
    ofCells? (first :: rest) = some ⟨.ofCell first,
      argsOf rest (.ofName (Identifier.ofCell first).name), Cell.reach first rest⟩ := by
  rw [ofCells?]
  cases hshape : Shape.ofName (Identifier.ofCell first).name with
  | values => rfl
  | callAfter count => rfl
  | sequence =>
    have hruns := List.attach_map_subtype_val (runs rest).2
    have hcells := List.attach_map_subtype_val rest
    simp only [argsOf]
    conv_rhs => rw [← hruns, ← hcells, List.flatMap_map, List.flatMap_map, hcells]

theorem runs_flatten (cells : List Cell) :
    (runs cells).1 ++ (runs cells).2.flatMap (fun run => run.1 :: run.2) = cells := by
  induction cells with
  | nil => rfl
  | cons cell rest ih =>
    simp only [runs]
    split
    · simpa using ih
    · simpa using ih

/-- A relation between cells and what is read from them, one part behind the other: it holds
of single values and of the separators between calls. -/
structure InTurn (R : List Cell → List Expression → Prop) : Prop where
  nil : R [] []
  append {left right : List Cell} {es others : List Expression} (h : R left es)
    (hothers : R right others) : R (left ++ right) (es ++ others)
  value (cell : Cell) : R [cell] [.ofCell cell]
  separator (cell : Cell) : R [cell] [.literal (.ofCell cell)]

namespace InTurn

variable {R : List Cell → List Expression → Prop} {rest : List Cell}

theorem flatMap (h : InTurn R) {α : Type} {cellsOf : α → List Cell}
    {read : α → List Expression} {items : List α}
    (hitems : ∀ item ∈ items, R (cellsOf item) (read item)) :
    R (items.flatMap cellsOf) (items.flatMap read) := by
  induction items with
  | nil => exact h.nil
  | cons item items ih =>
    rw [List.forall_mem_cons] at hitems
    exact h.append hitems.1 (ih hitems.2)

theorem flatMap_cells (h : InTurn R) {read : Cell → List Expression}
    (hcells : ∀ cell ∈ rest, R [cell] (read cell)) : R rest (rest.flatMap read) := by
  have hflat := h.flatMap hcells
  rwa [List.flatMap_singleton'] at hflat

theorem values (h : InTurn R) (cells : List Cell) : R cells (cells.map Expression.ofCell) := by
  rw [List.map_eq_flatMap]
  exact h.flatMap_cells fun cell _ => h.value cell

/-- The cells behind a keyword are read in turn if those of the calls among them are. -/
theorem argsOf (h : InTurn R)
    (hcalls : ∀ cells : List Cell, cells.length ≤ rest.length → R cells (embed (ofCells? cells)))
    (shape : Shape) : R rest (argsOf rest shape) := by
  cases shape with
  | values => exact h.values rest
  | callAfter count =>
    have hread := h.append (h.values (rest.take count)) (hcalls (rest.drop count) (by simp))
    rwa [List.take_append_drop] at hread
  | sequence =>
    simp only [Call.argsOf]
    split
    · have hruns : R ((runs rest).2.flatMap fun run => run.1 :: run.2)
          ((runs rest).2.flatMap fun run =>
            .literal (.ofCell run.1) :: embed (ofCells? run.2)) := by
        refine h.flatMap fun run hrun => ?_
        exact h.append (h.separator run.1) (hcalls run.2 (length_of_mem_runs rest run hrun).le)
      have hread := h.append (hcalls (runs rest).1 (length_runs_fst rest)) hruns
      rwa [runs_flatten] at hread
    · exact h.flatMap_cells fun cell hcell => hcalls [cell] (List.length_pos_of_mem hcell)

theorem embed_ofCells? (h : InTurn R)
    (hcall : ∀ first rest args,
      ofCells? (first :: rest) = some ⟨.ofCell first, args, Cell.reach first rest⟩ → R rest args →
        R (first :: rest) [.call (.ofCell first) args (Cell.reach first rest)])
    (cells : List Cell) : R cells (embed (ofCells? cells)) := by
  induction hlength : cells.length using Nat.strong_induction_on generalizing cells with
  | _ n ih =>
    subst hlength
    cases cells with
    | nil =>
      rw [ofCells?]
      exact h.nil
    | cons first rest =>
      rw [ofCells?_cons]
      apply hcall first rest _ (ofCells?_cons first rest)
      exact h.argsOf (fun cells hcells => ih cells.length (Nat.lt_succ_of_le hcells) cells rfl) _

end InTurn

theorem nests_of_mem_embed {outer : Span} {cells : List Cell} (h : Cell.Inside outer cells) :
    ∀ e ∈ embed (ofCells? cells), Nests outer (ofExpression e) := by
  have hturn : InTurn fun cells es =>
      ∀ outer, Cell.Inside outer cells → ∀ e ∈ es, Nests outer (ofExpression e) := by
    refine ⟨?nil, ?append, ?value, ?separator⟩
    case nil => simp
    case append =>
      intro left right es others hleft hright outer h
      rw [List.forall_mem_append]
      exact ⟨hleft outer (h.sublist (List.sublist_append_left left right)),
        hright outer (h.sublist (List.sublist_append_right left right))⟩
    case value =>
      intro cell outer h e he
      obtain rfl := List.mem_singleton.1 he
      exact h.value List.mem_cons_self
    case separator =>
      intro cell outer h e he
      obtain rfl := List.mem_singleton.1 he
      exact h.literal List.mem_cons_self
  refine hturn.embed_ofCells? (fun first rest args _ hargs outer h e he => ?_) cells outer h
  obtain rfl := List.mem_singleton.1 he
  apply h.node rfl
  intro span hspan child hchild
  obtain rfl | ⟨e, he, rfl⟩ : child = identifier (.ofCell first) ∨
      ∃ e ∈ args, ofExpression e = child := by
    simpa [ofExpression, children_eq, fields] using hchild
  · exact hspan.name List.mem_cons_self
  · exact hargs span (hspan.sublist (List.sublist_cons_self first rest)) e he

theorem nests_ofCells? {outer : Span} {cells : List Cell} (h : Cell.Inside outer cells) :
    ∀ call ∈ ofCells? cells, Nests outer (callExpression call) := by
  intro call hcall
  apply nests_of_mem_embed h call.toExpression
  simp [embed, Option.mem_def.1 hcall]

end Call

theorem Step.nests_ofCells? {outer : Span} {cells : List Cell} (h : Cell.Inside outer cells) :
    ∀ step ∈ Step.ofCells? cells, Nests outer (.step step) := by
  intro step hstep
  cases cells with
  | nil => cases hstep
  | cons first rest =>
    simp only [Step.ofCells?] at hstep
    split at hstep
    · rename_i target htarget
      obtain rfl := Option.some.inj hstep
      apply h.node rfl
      intro span hspan child hchild
      obtain rfl := List.mem_singleton.1 hchild
      apply hspan.node rfl
      intro inner hinner child hchild
      have hid := (Target.nested_ofCell? (hinner.fits first List.mem_cons_self) htarget).id
      have hsub := (List.dropWhile_sublist Step.isTarget).trans (List.sublist_cons_self first rest)
      obtain rfl | ⟨e, he, rfl⟩ : child = identifier target.id ∨
          ∃ e ∈ Call.embed (Call.ofCells? (rest.dropWhile Step.isTarget)),
            ofExpression e = child := by
        simpa [children_eq, fields, ofStepBody] using hchild
      · exact hid.mono (hinner.within first List.mem_cons_self)
      · exact Call.nests_of_mem_embed (hinner.sublist hsub) e he
    · obtain ⟨call, hcall, rfl⟩ := Option.map_eq_some_iff.1 hstep
      apply h.node rfl
      intro span hspan child hchild
      obtain rfl := List.mem_singleton.1 hchild
      exact Call.nests_ofCells? hspan call hcall

end SuiteIndex
