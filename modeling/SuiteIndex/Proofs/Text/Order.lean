import Mathlib.Data.Char
import Mathlib.Data.List.Lex
import SuiteIndex.Text

/-! # The order of texts and sorting by it

The order by code points is the lexicographic order of lists of characters, and strings of bytes
are ordered in the same way. Sorting by a text that every item carries keeps items of one text in
their old order. A sorted list is determined by its items of each single text, so it is the sorted
form of every list with the same items of each text in the same order.
-/

namespace SuiteIndex.Text

instance linearOrderByte : LinearOrder UInt8 where
  le_refl := UInt8.le_refl
  le_trans _ _ _ := UInt8.le_trans
  le_antisymm _ _ := UInt8.le_antisymm
  le_total := UInt8.le_total
  lt_iff_le_not_ge a b := by
    rw [UInt8.not_le]
    exact ⟨fun h => ⟨UInt8.le_of_lt h, h⟩, And.right⟩
  toDecidableLE := inferInstance
  toDecidableLT := inferInstance
  toDecidableEq := inferInstance

theorem toNat_lt_iff (c d : Char) : c.toNat < d.toNat ↔ c < d := Iff.rfl

theorem before_iff_lt (s t : Text) : before s t = true ↔ s < t := by
  induction s generalizing t with
  | nil => cases t <;> simp [before]
  | cons a s ih =>
    cases t with
    | nil => simp [before]
    | cons b t => simp [before, ih, List.cons_lt_cons_iff, toNat_lt_iff]

theorem notAfter_iff_le (s t : Text) : notAfter s t = true ↔ s ≤ t := by
  rw [notAfter, Bool.not_eq_true', ← Bool.not_eq_true, before_iff_lt, not_lt]

theorem nil_le (t : Text) : ([] : Text) ≤ t :=
  not_lt.1 (List.not_lt_nil t)

variable {α : Type}

/-- Sort by a text of each item; items of the same text stay in order. -/
def sortOn (key : α → Text) (items : List α) : List α :=
  items.mergeSort fun a b => notAfter (key a) (key b)

theorem sortOn_perm (key : α → Text) (items : List α) : (sortOn key items).Perm items :=
  List.mergeSort_perm _ _

private theorem notAfter_key_trans (key : α → Text) (a b c : α)
    (hab : notAfter (key a) (key b) = true) (hbc : notAfter (key b) (key c) = true) :
    notAfter (key a) (key c) = true := by
  rw [notAfter_iff_le] at *
  exact hab.trans hbc

private theorem notAfter_key_total (key : α → Text) (a b : α) :
    (notAfter (key a) (key b) || notAfter (key b) (key a)) = true := by
  rw [Bool.or_eq_true, notAfter_iff_le, notAfter_iff_le]
  exact le_total _ _

theorem pairwise_sortOn (key : α → Text) (items : List α) :
    (sortOn key items).Pairwise (key · ≤ key ·) :=
  (List.pairwise_mergeSort (notAfter_key_trans key) (notAfter_key_total key) items).imp
    fun h => (notAfter_iff_le _ _).1 h

theorem filter_sortOn (key : α → Text) (items : List α) (k : Text) :
    (sortOn key items).filter (key · = k) = items.filter (key · = k) := by
  have hsame : (items.filter (key · = k)).Pairwise
      fun a b => notAfter (key a) (key b) = true := by
    refine List.pairwise_iff_forall_sublist.2 fun {a b} hab => ?_
    have ha := List.of_mem_filter (hab.subset (by simp : a ∈ [a, b]))
    have hb := List.of_mem_filter (hab.subset (by simp : b ∈ [a, b]))
    rw [notAfter_iff_le, of_decide_eq_true ha, of_decide_eq_true hb]
  have hsub : (items.filter (key · = k)).Sublist (sortOn key items) :=
    List.sublist_mergeSort (notAfter_key_trans key) (notAfter_key_total key) hsame
      List.filter_sublist
  have hfilter := hsub.filter (key · = k)
  simp only [List.filter_filter, Bool.and_self] at hfilter
  exact (hfilter.eq_of_length ((sortOn_perm key items).filter _).length_eq.symm).symm

private theorem key_le_of_head (key : α → Text) {a b : α} {l m : List α}
    (hl : (a :: l).Pairwise (key · ≤ key ·))
    (h : ∀ k, (a :: l).filter (key · = k) = (b :: m).filter (key · = k)) : key a ≤ key b := by
  have hb : b ∈ (a :: l).filter (key · = key b) := by
    rw [h]
    simp
  rcases List.mem_cons.1 (List.mem_of_mem_filter hb) with rfl | hb
  · exact le_rfl
  · exact (List.pairwise_cons.1 hl).1 b hb

theorem eq_of_sorted (key : α → Text) {l m : List α} (hl : l.Pairwise (key · ≤ key ·))
    (hm : m.Pairwise (key · ≤ key ·))
    (h : ∀ k, l.filter (key · = k) = m.filter (key · = k)) : l = m := by
  induction l generalizing m with
  | nil =>
    cases m with
    | nil => rfl
    | cons b m => simpa using h (key b)
  | cons a l ih =>
    cases m with
    | nil => simpa using h (key a)
    | cons b m =>
      -- Either head occurs in the other list, so neither key is greater.
      have hkey : key a = key b :=
        le_antisymm (key_le_of_head key hl h) (key_le_of_head key hm fun k => (h k).symm)
      have hab : a = b := by
        have hhead := h (key b)
        simp only [hkey, List.filter_cons, decide_true, if_true, List.cons.injEq] at hhead
        exact hhead.1
      subst hab
      congr 1
      apply ih (List.pairwise_cons.1 hl).2 (List.pairwise_cons.1 hm).2
      intro k
      have hk := h k
      by_cases hak : key a = k
      · simpa [List.filter_cons, hak] using hk
      · simpa [List.filter_cons, hak] using hk

theorem eq_sortOn (key : α → Text) {l items : List α} (hl : l.Pairwise (key · ≤ key ·))
    (h : ∀ k, l.filter (key · = k) = items.filter (key · = k)) : l = sortOn key items :=
  eq_of_sorted key hl (pairwise_sortOn key items) fun k =>
    (h k).trans (filter_sortOn key items k).symm

theorem sortOn_filter (key : α → Text) (p : α → Bool) (items : List α) :
    sortOn key (items.filter p) = (sortOn key items).filter p := by
  refine (eq_sortOn key ((pairwise_sortOn key items).filter p) fun k => ?_).symm
  rw [List.filter_comm, filter_sortOn, List.filter_comm]

theorem perm_of_filter_eq (key : α → Text) {l m : List α}
    (h : ∀ k, l.filter (key · = k) = m.filter (key · = k)) : l.Perm m := by
  have hsort : sortOn key l = sortOn key m :=
    eq_sortOn key (pairwise_sortOn key l) fun k => (filter_sortOn key l k).trans (h k)
  exact (sortOn_perm key l).symm.trans (hsort ▸ sortOn_perm key m)

end SuiteIndex.Text
