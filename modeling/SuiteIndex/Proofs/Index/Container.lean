import Mathlib.Algebra.Ring.Nat
import SuiteIndex.Index.Container
import SuiteIndex.Proofs.Index.SearchTree

/-! # What containers hold

A container that was built by adding and removing items holds every item under its own
name, so looking a name up selects it from all items. Merging appends the items of each
name, and retracting takes the first equal copies away. A container that gathers several
others holds, under each name, their items one after another; this is kept when another
one is merged in, and when one of them is retracted whose items equal none before them.
-/

namespace SuiteIndex

namespace Container

variable {α : Type} [Keyed α]

/-- The name under which an item is stored. -/
def nameOf (item : α) : Text :=
  normalize (Keyed.key item)

/-- A container with every item stored under its own name. -/
structure Valid (container : Container α) : Prop where
  tree : container.tree.Valid
  nameOf_eq : ∀ key, ∀ item ∈ container.tree.get key, nameOf item = key

theorem valid_empty : (empty : Container α).Valid :=
  ⟨SearchTree.valid_empty, fun key item h => by cases key <;> simp [empty, SearchTree.empty,
    SearchTree.get, Branch.find?] at h⟩

namespace Valid

variable {container : Container α}

theorem items_eq (h : container.Valid) : container.items = container.tree.entries.map Prod.snd := by
  rw [items, SearchTree.toList, h.tree.startingWith_eq]
  simp

theorem size_eq (h : container.Valid) : container.size = container.items.length := by
  rw [h.items_eq, List.length_map]
  exact h.tree.size_eq

theorem nameOf_of_mem_entries (h : container.Valid) {e : Text × α}
    (he : e ∈ container.tree.entries) : nameOf e.2 = e.1 := by
  refine h.nameOf_eq e.1 e.2 ?_
  rw [h.tree.get_eq]
  exact List.mem_map.2 ⟨e, List.mem_filter.2 ⟨he, by simp⟩, rfl⟩

theorem get_eq (h : container.Valid) (key : Text) :
    container.tree.get key = container.items.filter (nameOf · = key) := by
  rw [h.tree.get_eq, h.items_eq, List.filter_map]
  congr 1
  apply List.filter_congr
  intro e he
  simp [h.nameOf_of_mem_entries he]

theorem startingWith_eq (h : container.Valid) (start : Text) :
    container.startingWith start =
      container.items.filter fun item => (normalize start).isPrefixOf (nameOf item) := by
  rw [startingWith, h.tree.startingWith_eq, h.items_eq, List.filter_map]
  congr 1
  apply List.filter_congr
  intro e he
  simp [h.nameOf_of_mem_entries he]

theorem mem_exact_iff (h : container.Valid) {key : Text} {item : α} :
    item ∈ container.exact key ↔ item ∈ container.items ∧ nameOf item = normalize key := by
  rw [exact, h.get_eq, List.mem_filter, decide_eq_true_eq]

theorem mem_items_of_mem_exact (h : container.Valid) {key : Text} {item : α}
    (hitem : item ∈ container.exact key) : item ∈ container.items :=
  (h.mem_exact_iff.1 hitem).1

theorem mem_get_nameOf (h : container.Valid) {item : α} (hitem : item ∈ container.items) :
    item ∈ container.tree.get (nameOf item) := by
  rw [h.get_eq]
  exact List.mem_filter.2 ⟨hitem, by simp⟩

theorem pairwise_items (h : container.Valid) : container.items.Pairwise (nameOf · ≤ nameOf ·) := by
  rw [h.items_eq, List.pairwise_map]
  refine h.tree.pairwise_entries.imp_of_mem fun {e f} he hf hef => ?_
  rwa [h.nameOf_of_mem_entries he, h.nameOf_of_mem_entries hf]

theorem get_add (h : container.Valid) (item : α) (key : Text) :
    (container.add item).tree.get key =
      container.tree.get key ++ if nameOf item = key then [item] else [] := by
  rw [add, h.tree.get_insert]
  by_cases hk : nameOf item = key
  · simp [← hk, nameOf]
  · have hk' : ¬ key = normalize (Keyed.key item) := fun h' => hk h'.symm
    simp [hk, hk']

theorem mem_get_add (h : container.Valid) {item other : α} {key : Text}
    (hother : other ∈ (container.add item).tree.get key) :
    other ∈ container.tree.get key ∨ other = item ∧ nameOf item = key := by
  rw [h.get_add, List.mem_append] at hother
  rcases hother with hother | hother
  · exact .inl hother
  · by_cases hk : nameOf item = key
    · simp only [if_pos hk, List.mem_singleton] at hother
      exact .inr ⟨hother, hk⟩
    · simp [hk] at hother

theorem add (h : container.Valid) (item : α) : (container.add item).Valid := by
  refine ⟨h.tree.insert _ item, fun key other hother => ?_⟩
  rcases h.mem_get_add hother with hother | ⟨rfl, hk⟩
  · exact h.nameOf_eq key other hother
  · exact hk

theorem get_remove [BEq α] (h : container.Valid) (item : α) (key : Text) :
    (container.remove item).tree.get key =
      if nameOf item = key then (container.tree.get key).eraseP (· == item)
      else container.tree.get key := by
  rw [remove, h.tree.get_shrink _ fun l => List.eraseP_sublist.length_le]
  by_cases hk : nameOf item = key
  · simp [← hk, nameOf]
  · have hk' : ¬ key = normalize (Keyed.key item) := fun h' => hk h'.symm
    simp [hk, hk']

theorem remove [BEq α] (h : container.Valid) (item : α) : (container.remove item).Valid := by
  refine ⟨h.tree.shrink _ fun l => List.eraseP_sublist.length_le, fun key other hother => ?_⟩
  rw [h.get_remove] at hother
  refine h.nameOf_eq key other ?_
  split at hother
  · exact List.eraseP_sublist.subset hother
  · exact hother

theorem foldl_add (h : container.Valid) (items : List α) :
    (items.foldl Container.add container).Valid ∧
      ∀ key, (items.foldl Container.add container).tree.get key =
        container.tree.get key ++ items.filter (nameOf · = key) := by
  induction items generalizing container with
  | nil => exact ⟨h, by simp⟩
  | cons item items ih =>
    refine ⟨(ih (h.add item)).1, fun key => ?_⟩
    rw [List.foldl_cons, (ih (h.add item)).2, h.get_add]
    by_cases hk : nameOf item = key <;> simp [hk]

theorem foldl_remove [BEq α] (h : container.Valid) (items : List α) :
    (items.foldl Container.remove container).Valid ∧
      ∀ key, (items.foldl Container.remove container).tree.get key =
        (items.filter (nameOf · = key)).foldl (fun held item => held.eraseP (· == item))
          (container.tree.get key) := by
  induction items generalizing container with
  | nil => exact ⟨h, by simp⟩
  | cons item items ih =>
    refine ⟨(ih (h.remove item)).1, fun key => ?_⟩
    rw [List.foldl_cons, (ih (h.remove item)).2, h.get_remove]
    by_cases hk : nameOf item = key <;> simp [hk]

variable {other : Container α}

theorem merge (h : container.Valid) : (container.merge other).Valid :=
  (h.foldl_add other.items).1

theorem get_merge (h : container.Valid) (hother : other.Valid) (key : Text) :
    (container.merge other).tree.get key = container.tree.get key ++ other.tree.get key := by
  rw [hother.get_eq]
  exact (h.foldl_add other.items).2 key

theorem retract [BEq α] (h : container.Valid) : (container.retract other).Valid :=
  (h.foldl_remove other.items).1

theorem get_retract [BEq α] (h : container.Valid) (hother : other.Valid) (key : Text) :
    (container.retract other).tree.get key =
      (other.tree.get key).foldl (fun held item => held.eraseP (· == item))
        (container.tree.get key) := by
  rw [hother.get_eq]
  exact (h.foldl_remove other.items).2 key

end Valid

theorem items_foldl_add (items : List α) :
    (items.foldl add empty).items = Text.sortOn nameOf items := by
  obtain ⟨hvalid, hget⟩ := valid_empty.foldl_add items
  apply Text.eq_sortOn nameOf hvalid.pairwise_items
  intro key
  rw [← hvalid.get_eq, hget]
  cases key <;> rfl

omit [Keyed α] in
/-- Taking away a stretch of a list item by item, with nothing equal before it, leaves
what stands around it. -/
theorem foldl_eraseP_append [BEq α] [ReflBEq α] {front own : List α} (back : List α)
    (h : ∀ a ∈ front, ∀ b ∈ own, ¬ (a == b) = true) :
    own.foldl (fun held item => held.eraseP (· == item)) (front ++ own ++ back) =
      front ++ back := by
  induction own with
  | nil => simp
  | cons item own ih =>
    have hfront : ∀ a ∈ front, ¬ (a == item) = true :=
      fun a ha => h a ha item List.mem_cons_self
    have hitem : (item :: (own ++ back)).eraseP (· == item) = own ++ back :=
      List.eraseP_cons_of_pos BEq.rfl
    rw [List.foldl_cons, List.append_assoc, List.eraseP_append_right _ hfront,
      List.cons_append, hitem, ← List.append_assoc]
    exact ih fun a ha b hb => h a ha b (List.mem_cons_of_mem _ hb)

/-- The container holds under each name what the parts hold, one part after another. -/
structure Gathers (container : Container α) (parts : List (Container α)) : Prop where
  valid : container.Valid
  get_eq : ∀ key, container.tree.get key = parts.flatMap (·.tree.get key)

namespace Gathers

variable {container part : Container α} {parts front back : List (Container α)}

theorem empty : (Container.empty : Container α).Gathers [] :=
  ⟨valid_empty, fun key => by cases key <;> rfl⟩

theorem merge (h : container.Gathers parts) (hpart : part.Valid) :
    (container.merge part).Gathers (parts ++ [part]) := by
  refine ⟨h.valid.merge, fun key => ?_⟩
  rw [h.valid.get_merge hpart, h.get_eq]
  simp

theorem retract [BEq α] [ReflBEq α] (h : container.Gathers (front ++ part :: back))
    (hpart : part.Valid)
    (hfront : ∀ key, ∀ other ∈ front, ∀ a ∈ other.tree.get key, ∀ b ∈ part.tree.get key,
      ¬ (a == b) = true) :
    (container.retract part).Gathers (front ++ back) := by
  refine ⟨h.valid.retract, fun key => ?_⟩
  rw [h.valid.get_retract hpart, h.get_eq, List.flatMap_append, List.flatMap_cons,
    ← List.append_assoc, foldl_eraseP_append, List.flatMap_append]
  intro a ha b hb
  obtain ⟨other, hother, ha⟩ := List.mem_flatMap.1 ha
  exact hfront key other hother a ha b hb

theorem items_perm (h : container.Gathers parts) (hparts : ∀ part ∈ parts, part.Valid) :
    container.items.Perm (parts.flatMap items) := by
  apply Text.perm_of_filter_eq nameOf
  intro key
  rw [← h.valid.get_eq, h.get_eq, List.filter_flatMap]
  exact List.flatMap_congr fun part hpart => (hparts part hpart).get_eq key

theorem size_eq (h : container.Gathers parts) (hparts : ∀ part ∈ parts, part.Valid) :
    container.size = (parts.map size).sum := by
  rw [h.valid.size_eq, (h.items_perm hparts).length_eq, List.length_flatMap]
  refine congrArg List.sum (List.map_congr_left fun part hpart => ?_)
  exact ((hparts part hpart).size_eq).symm

theorem items_eq {other : Container α} (h : container.Gathers parts) (hother : other.Gathers parts) :
    container.items = other.items := by
  apply Text.eq_of_sorted nameOf h.valid.pairwise_items hother.valid.pairwise_items
  intro key
  rw [← h.valid.get_eq, ← hother.valid.get_eq, h.get_eq, hother.get_eq]

end Gathers

end Container

end SuiteIndex
