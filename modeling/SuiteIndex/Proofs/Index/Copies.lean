import SuiteIndex.Proofs.Index.Symbol

/-! # How many copies a container holds

Containers may hold several copies of an item, and an item is only known up to equality, which
for symbols is weaker than being the same. Adding an item gives one more copy of everything that
equals it, and removing one takes one copy away if there is any. So merging adds the numbers of
copies and retracting subtracts them, whichever of the equal copies are taken: what was merged
in can be retracted again, and what was retracted can be merged in again if all of it was held.
-/

namespace SuiteIndex

/-- Equality is an equivalence, and equal items have the same name. -/
class LawfulKeyed (α : Type) [Keyed α] [BEq α] : Prop extends EquivBEq α where
  key_eq : ∀ a b : α, (a == b) = true → Keyed.key a = Keyed.key b

/-- Items are equal in an equivalence if equality compares something that they show. -/
theorem equivBEq_of_view {α β : Type} [BEq α] (view : α → β)
    (h : ∀ a b : α, (a == b) = true ↔ view a = view b) : EquivBEq α where
  rfl {a} := (h a a).2 rfl
  symm {a b} hab := (h b a).2 ((h a b).1 hab).symm
  trans {a b c} hab hbc := (h a c).2 (((h a b).1 hab).trans ((h b c).1 hbc))

/-- What equality compares of an origin: the components of a path, or the name of a library. -/
def Origin.view : Origin → List Path.Component ⊕ Text
  | file path => .inl path.components
  | library name => .inr name

theorem Origin.beq_iff (a b : Origin) : (a == b) = true ↔ a.view = b.view := by
  cases a <;> cases b
  case library.library name other =>
    exact (beq_iff_eq : (name == other) = true ↔ _).trans (by simp [view])
  all_goals simp [view, BEq.beq, instBEqOrigin.beq, Path.same]

instance : LawfulKeyed KeywordSymbol where
  toEquivBEq := equivBEq_of_view (fun symbol => (symbol.name, symbol.moduleName, symbol.origin.view,
    symbol.location, symbol.arguments, symbol.documentation))
    fun a b => by simp [KeywordSymbol.beq_eq, Origin.beq_iff]
  key_eq a b h := by
    simp only [KeywordSymbol.beq_eq, Bool.and_eq_true, beq_iff_eq] at h
    exact h.1

instance : LawfulKeyed VariableSymbol where
  toEquivBEq := equivBEq_of_view (fun symbol => (symbol.name, symbol.kind, symbol.moduleName,
    symbol.origin.view, symbol.location))
    fun a b => by simp [VariableSymbol.beq_eq, Origin.beq_iff]
  key_eq a b h := by
    simp only [VariableSymbol.beq_eq, Bool.and_eq_true, beq_iff_eq] at h
    change a.kind.reference a.name = b.kind.reference b.name
    rw [h.1, h.2.1]

section

variable {α : Type} [BEq α] [EquivBEq α]

theorem count_eraseP_beq (item other : α) (held : List α) :
    (held.eraseP (· == item)).count other =
      held.count other - if (item == other) = true then 1 else 0 := by
  induction held with
  | nil => simp
  | cons first rest ih =>
    by_cases hfirst : (first == item) = true
    · rw [List.eraseP_cons, hfirst, cond_true, List.count_cons, BEq.congr_left hfirst,
        Nat.add_sub_cancel]
    · rw [List.eraseP_cons, Bool.eq_false_iff.2 hfirst, cond_false, List.count_cons,
        List.count_cons, ih]
      by_cases hitem : (item == other) = true
      · have hother : (first == other) = false := by
          rw [← BEq.congr_right hitem]
          exact Bool.eq_false_iff.2 hfirst
        simp [hother]
      · simp [hitem]

theorem count_foldl_eraseP (own held : List α) (other : α) :
    (own.foldl (fun held item => held.eraseP (· == item)) held).count other =
      held.count other - own.count other := by
  induction own generalizing held with
  | nil => simp
  | cons item own ih =>
    rw [List.foldl_cons, ih, count_eraseP_beq, List.count_cons, Nat.sub_sub, Nat.add_comm]

theorem length_le_of_count_le {l m : List α} (h : ∀ a, l.count a ≤ m.count a) :
    l.length ≤ m.length := by
  induction l generalizing m with
  | nil => exact Nat.zero_le _
  | cons first rest ih =>
    -- A copy of the first item is taken out of both lists.
    have hfirst : 0 < m.countP (· == first) := by
      have hcount := h first
      rw [List.count_cons, if_pos BEq.rfl] at hcount
      exact Nat.lt_of_lt_of_le (Nat.succ_pos _) hcount
    obtain ⟨copy, hcopy, hequal⟩ := List.countP_pos_iff.1 hfirst
    have hrest := ih (m := m.eraseP (· == first)) fun a => by
      have ha := h a
      rw [List.count_cons] at ha
      rw [count_eraseP_beq]
      exact Nat.le_sub_of_add_le ha
    have hpos := List.length_pos_of_mem hcopy
    rw [List.length_eraseP_of_mem hcopy hequal] at hrest
    rw [List.length_cons]
    omega

end

namespace Container

variable {α : Type} [Keyed α]

/-- The containers that operations build from the empty one. -/
inductive Built [BEq α] : Container α → Prop
  | empty : Built empty
  | add {container : Container α} (h : Built container) (item : α) : Built (container.add item)
  | remove {container : Container α} (h : Built container) (item : α) :
    Built (container.remove item)
  | merge {container other : Container α} (h : Built container) (hother : Built other) :
    Built (container.merge other)
  | retract {container other : Container α} (h : Built container) (hother : Built other) :
    Built (container.retract other)

theorem Built.valid [BEq α] {container : Container α} (h : container.Built) : container.Valid := by
  induction h with
  | empty => exact valid_empty
  | add _ item ih => exact ih.add item
  | remove _ item ih => exact ih.remove item
  | merge _ _ ih _ => exact ih.merge
  | retract _ _ ih _ => exact ih.retract

/-- The number of held items that equal this one. -/
def copies [BEq α] (container : Container α) (item : α) : Nat :=
  container.items.count item

variable [BEq α] [LawfulKeyed α] {container other : Container α}

theorem nameOf_eq_of_beq {a b : α} (h : (a == b) = true) : nameOf a = nameOf b :=
  congrArg normalize (LawfulKeyed.key_eq a b h)

namespace Valid

theorem copies_eq (h : container.Valid) (item : α) :
    container.copies item = (container.tree.get (nameOf item)).count item := by
  rw [copies, h.get_eq, List.count_eq_countP, List.count_eq_countP, List.countP_filter]
  refine List.countP_congr fun a _ => ?_
  simpa using fun ha => nameOf_eq_of_beq ha

theorem copies_add (h : container.Valid) (item other : α) :
    (container.add item).copies other =
      container.copies other + if (item == other) = true then 1 else 0 := by
  rw [(h.add item).copies_eq, h.copies_eq, h.get_add, List.count_append]
  by_cases hequal : (item == other) = true
  · simp [List.count_cons, hequal, nameOf_eq_of_beq hequal]
  · by_cases hname : nameOf item = nameOf other <;> simp [List.count_cons, hequal, hname]

theorem copies_merge (h : container.Valid) (hother : other.Valid) (item : α) :
    (container.merge other).copies item = container.copies item + other.copies item := by
  rw [h.merge.copies_eq, h.copies_eq, hother.copies_eq, h.get_merge hother, List.count_append]

theorem copies_retract (h : container.Valid) (hother : other.Valid) (item : α) :
    (container.retract other).copies item = container.copies item - other.copies item := by
  rw [h.retract.copies_eq, h.copies_eq, hother.copies_eq, h.get_retract hother,
    count_foldl_eraseP]

theorem size_eq_of_copies_eq (h : container.Valid) (hother : other.Valid)
    (hcopies : ∀ item, container.copies item = other.copies item) :
    container.size = other.size := by
  rw [h.size_eq, hother.size_eq]
  apply Nat.le_antisymm
  · exact length_le_of_count_le fun item => (hcopies item).le
  · exact length_le_of_count_le fun item => (hcopies item).ge

end Valid

/-- Retracting what was merged in restores the numbers of copies and the size, and so does
merging in again what was retracted, provided that all of it was held. -/
theorem copies_restored (h : container.Built) (hother : other.Built) :
    (∀ item, ((container.merge other).retract other).copies item = container.copies item) ∧
      ((container.merge other).retract other).size = container.size ∧
      ((∀ item, other.copies item ≤ container.copies item) →
        (∀ item, ((container.retract other).merge other).copies item = container.copies item) ∧
          ((container.retract other).merge other).size = container.size) := by
  have hvalid := h.valid
  have hothers := hother.valid
  have hmerged (item : α) :
      ((container.merge other).retract other).copies item = container.copies item := by
    rw [hvalid.merge.copies_retract hothers, hvalid.copies_merge hothers, Nat.add_sub_cancel]
  refine ⟨hmerged, hvalid.merge.retract.size_eq_of_copies_eq hvalid hmerged, fun hheld => ?_⟩
  have hretracted (item : α) :
      ((container.retract other).merge other).copies item = container.copies item := by
    rw [hvalid.retract.copies_merge hothers, hvalid.copies_retract hothers,
      Nat.sub_add_cancel (hheld item)]
  exact ⟨hretracted, hvalid.retract.merge.size_eq_of_copies_eq hvalid hretracted⟩

/-- A copy whose file is spelled differently is merged in, retracted, and the other way round,
beside an item whose name differs only in case. -/
theorem copies_restored_of_respelled_path :
    let find (name path : String) : KeywordSymbol :=
      ⟨name.toList, [], .file (.ofText path.toList), .synthetic, [], none⟩
    let first := (empty.add (find "Find" "/ws/a.robot")).add (find "FIND" "/ws/a.robot")
    let held := first.add (find "Find" "/ws//a.robot")
    let other := empty.add (find "Find" "/ws/./a.robot")
    held.Built ∧ other.Built ∧ (∀ item, other.copies item ≤ held.copies item) ∧
      ((held.merge other).retract other).copies (find "Find" "/ws/a.robot") = 2 ∧
      ((held.merge other).retract other).size = 3 ∧
      ((held.retract other).merge other).copies (find "Find" "/ws/a.robot") = 2 ∧
      ((held.retract other).merge other).size = 3 := by
  intro find first held other
  have hfirst : first.Built := (Built.empty.add _).add _
  have hheld : held.Built := hfirst.add _
  have hother : other.Built := Built.empty.add _
  have hcopies (item : KeywordSymbol) : other.copies item ≤ held.copies item := by
    have hequal : (find "Find" "/ws/./a.robot" == find "Find" "/ws//a.robot") = true := by decide
    have hlast := hfirst.valid.copies_add (find "Find" "/ws//a.robot") item
    have honly := valid_empty.copies_add (find "Find" "/ws/./a.robot") item
    rw [BEq.congr_left hequal] at honly
    exact (honly.trans_le (Nat.add_le_add_right (Nat.zero_le _) _)).trans_eq hlast.symm
  obtain ⟨hmerged, hsize, hrest⟩ := copies_restored hheld hother
  obtain ⟨hretracted, hsize'⟩ := hrest hcopies
  rw [hmerged, hsize, hretracted, hsize']
  exact ⟨hheld, hother, hcopies, by decide, by decide, by decide, by decide⟩

end Container

end SuiteIndex
