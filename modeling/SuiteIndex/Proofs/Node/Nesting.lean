import Mathlib.Data.List.Forall2
import Mathlib.Logic.Relation
import SuiteIndex.Node.Nodes
import SuiteIndex.Proofs.Position

/-! # Nested locations

A node nests inside a span if its own location is an ordered span inside it and all its
children nest inside that location. A node that takes in further children keeps nesting
as long as its location covers them.
-/

namespace SuiteIndex.Node

/-- Every location in the tree below the node is a span inside the one above it. -/
inductive Nests : Span → Node → Prop where
  | intro {outer span : Span} {node : Node} (hlocation : node.location = .parsed span)
    (hordered : span.start ≤ span.stop) (hwithin : span ≤ outer)
    (hchildren : ∀ child ∈ node.children, Nests span child) : Nests outer node

/-- The nodes that are found by going from parents to children. -/
def Reaches : Node → Node → Prop :=
  Relation.ReflTransGen fun parent child => child ∈ parent.children

/-- The property holds of the node and of everything below it. -/
def Throughout (p : Node → Prop) (node : Node) : Prop :=
  ∀ below, Reaches node below → p below

theorem throughout_iff {p : Node → Prop} {node : Node} :
    Throughout p node ↔ p node ∧ ∀ child ∈ node.children, Throughout p child := by
  constructor
  · intro h
    exact ⟨h node .refl, fun child hchild below hbelow => h below (.head hchild hbelow)⟩
  · rintro ⟨hnode, hchildren⟩ below hbelow
    rcases hbelow.cases_head with rfl | ⟨child, hchild, hbelow⟩
    · exact hnode
    · exact hchildren child hchild below hbelow

/-- Slot by slot, the children of a node are those of another one or have a property. -/
theorem mem_children_of_fields {old new child : Node} {p : Node → Prop}
    (h : List.Forall₂ (fun before after => ∀ child ∈ after.2, child ∈ before.2 ∨ p child)
      old.fields new.fields) (hchild : child ∈ new.children) :
    child ∈ old.children ∨ p child := by
  rw [children_eq, List.mem_flatMap] at hchild ⊢
  generalize old.fields = before at h ⊢
  generalize new.fields = after at h hchild
  induction h with
  | nil => simp at hchild
  | cons hslot _ ih =>
    simp only [List.mem_cons, exists_eq_or_imp] at hchild ⊢
    rcases hchild with hchild | hchild
    · exact (hslot child hchild).imp .inl id
    · exact (ih hchild).imp .inr id

theorem mem_children_of_merge {left right new child : Node}
    (h : List.Forall₂ (fun slot sides => ∀ child ∈ slot.2, child ∈ sides.1.2 ∨ child ∈ sides.2.2)
      new.fields (left.fields.zip right.fields)) (hchild : child ∈ new.children) :
    child ∈ left.children ∨ child ∈ right.children := by
  simp only [children_eq, List.mem_flatMap] at hchild ⊢
  obtain ⟨slot, hslot, hchild⟩ := hchild
  obtain ⟨i, hi, rfl⟩ := List.getElem_of_mem hslot
  have hj : i < (left.fields.zip right.fields).length := h.length_eq ▸ hi
  obtain ⟨hleft, hright⟩ := List.of_mem_zip (List.getElem_mem hj)
  rcases h.get hi hj child hchild with hchild | hchild
  · exact .inl ⟨_, hleft, hchild⟩
  · exact .inr ⟨_, hright, hchild⟩

namespace Nests

variable {outer inner span : Span} {node old new : Node}

theorem mono (h : Nests inner node) (hle : inner ≤ outer) : Nests outer node := by
  obtain ⟨hlocation, hordered, hwithin, hchildren⟩ := h
  exact .intro hlocation hordered (hwithin.trans hle) hchildren

theorem child (h : Nests outer node) (hspan : node.location = .parsed span) {child : Node}
    (hchild : child ∈ node.children) : Nests span child := by
  obtain ⟨hlocation, -, -, hchildren⟩ := h
  obtain rfl := Location.parsed.inj (hlocation.symm.trans hspan)
  exact hchildren child hchild

theorem of_reaches (h : Nests outer old) (hreaches : Reaches old new) : ∃ span, Nests span new := by
  induction hreaches with
  | refl => exact ⟨outer, h⟩
  | tail _ hchild ih =>
    obtain ⟨_, _, _, _, hchildren⟩ := ih
    exact ⟨_, hchildren _ hchild⟩

theorem encloses (h : Nests outer node) :
    ∃ span, node.location = .parsed span ∧ span.start.notAfter span.stop = true ∧
      ∀ child ∈ node.children, node.location.encloses? child.location = some true := by
  obtain ⟨hlocation, hordered, -, hchildren⟩ := h
  refine ⟨_, hlocation, Position.notAfter_eq_true.2 hordered, fun child hchild => ?_⟩
  obtain ⟨hinner, -, hwithin, -⟩ := hchildren child hchild
  rw [hlocation, hinner, Location.encloses?, Span.encloses_eq_true.2 hwithin]

theorem insert (h : Nests outer old) (hspan : old.location = .parsed span)
    (hlocation : new.location = old.location)
    (hchildren : ∀ child ∈ new.children, child ∈ old.children ∨ Nests span child) :
    Nests outer new := by
  obtain ⟨hold, hordered, hwithin, hinner⟩ := h
  obtain rfl := Location.parsed.inj (hold.symm.trans hspan)
  apply Node.Nests.intro (hlocation.trans hspan) hordered hwithin
  intro child hchild
  rcases hchildren child hchild with hchild | hchild
  · exact hinner child hchild
  · exact hchild

theorem widen (h : Nests outer old) (hspan : span ≤ outer)
    (hlocation : new.location = old.location.cover (.parsed span))
    (hchildren : ∀ child ∈ new.children, child ∈ old.children ∨ Nests span child) :
    Nests outer new := by
  obtain @⟨_, before, _, hold, hordered, hwithin, hinner⟩ := h
  have hleft := Span.le_cover_left before span
  have hright := Span.le_cover_right before span
  rw [hold] at hlocation
  refine .intro hlocation (Span.start_le_stop_of_le hleft hordered)
    (Span.cover_le_iff.2 ⟨hwithin, hspan⟩) fun child hchild => ?_
  rcases hchildren child hchild with hchild | hchild
  · exact (hinner child hchild).mono hleft
  · exact hchild.mono hright

theorem merge {left right : Node} (hleft : Nests outer left) (hright : Nests outer right)
    (hlocation : new.location = left.location.cover right.location)
    (hslots : List.Forall₂
      (fun slot sides => ∀ child ∈ slot.2, child ∈ sides.1.2 ∨ child ∈ sides.2.2)
      new.fields (left.fields.zip right.fields)) : Nests outer new := by
  obtain ⟨hspan, -, hwithin, hinner⟩ := hright
  rw [hspan] at hlocation
  apply hleft.widen hwithin hlocation
  intro child hchild
  exact (mem_children_of_merge hslots hchild).imp id (hinner child)

end Nests

end SuiteIndex.Node
