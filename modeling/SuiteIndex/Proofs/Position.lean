import Mathlib.Data.Prod.Lex
import Mathlib.Order.MinMax
import SuiteIndex.Position

/-! # Reading order

Positions are ordered by their lines and then by their columns. Spans are ordered by
enclosure, and the cover of two spans is the smallest one above both.
-/

namespace SuiteIndex

namespace Position

instance : LinearOrder Position :=
  LinearOrder.lift' (fun p => toLex (p.line, p.column)) fun p q h => by
    cases p
    cases q
    simpa using h

theorem le_iff {p q : Position} :
    p ≤ q ↔ p.line < q.line ∨ p.line = q.line ∧ p.column ≤ q.column :=
  Prod.Lex.toLex_le_toLex

@[simp] theorem notAfter_eq_true {p q : Position} : p.notAfter q = true ↔ p ≤ q := by
  simp [notAfter, le_iff]

theorem earlier_eq_min (p q : Position) : p.earlier q = min p q := by
  by_cases h : p ≤ q
  · simp [earlier, h]
  · simp [earlier, h, le_of_not_ge h]

theorem later_eq_max (p q : Position) : p.later q = max p q := by
  by_cases h : p ≤ q
  · simp [later, h]
  · simp [later, h, le_of_not_ge h]

theorem lt_iff {p q : Position} :
    p < q ↔ p.line < q.line ∨ p.line = q.line ∧ p.column < q.column :=
  Prod.Lex.toLex_lt_toLex

theorem lt_of_line_lt {p q : Position} (h : p.line < q.line) : p < q :=
  lt_iff.2 (.inl h)

theorem lt_of_column_lt {p q : Position} (hline : p.line = q.line) (h : p.column < q.column) :
    p < q :=
  lt_iff.2 (.inr ⟨hline, h⟩)

end Position

namespace Span

instance : Preorder Span where
  le a b := b.start ≤ a.start ∧ a.stop ≤ b.stop
  le_refl a := ⟨le_refl a.start, le_refl a.stop⟩
  le_trans _ _ _ hab hbc := ⟨hbc.1.trans hab.1, hab.2.trans hbc.2⟩

theorem le_iff {a b : Span} : a ≤ b ↔ b.start ≤ a.start ∧ a.stop ≤ b.stop := Iff.rfl

@[simp] theorem encloses_eq_true {a b : Span} : a.encloses b = true ↔ b ≤ a := by
  simp [encloses, le_iff]

theorem cover_le_iff {a b c : Span} : a.cover b ≤ c ↔ a ≤ c ∧ b ≤ c := by
  simp only [le_iff, cover, Position.earlier_eq_min, Position.later_eq_max, le_min_iff, max_le_iff]
  tauto

theorem le_cover_left (a b : Span) : a ≤ a.cover b :=
  (cover_le_iff.1 le_rfl).1

theorem le_cover_right (a b : Span) : b ≤ a.cover b :=
  (cover_le_iff.1 le_rfl).2

@[simp] theorem contains_eq_true {a : Span} {p : Position} :
    a.contains p = true ↔ a.start ≤ p ∧ p ≤ a.stop := by
  simp only [contains, Position.le_iff, Bool.and_eq_true, Bool.not_eq_true', decide_eq_true_eq,
    Bool.and_eq_false_iff, beq_eq_false_iff_ne, decide_eq_false_iff_not]
  omega

theorem contains_of_le {a b : Span} (h : a ≤ b) {p : Position} (hp : a.contains p = true) :
    b.contains p = true := by
  rw [contains_eq_true] at hp ⊢
  exact ⟨h.1.trans hp.1, hp.2.trans h.2⟩

theorem start_le_stop_of_le {a b : Span} (h : a ≤ b) (ha : a.start ≤ a.stop) : b.start ≤ b.stop :=
  h.1.trans (ha.trans h.2)

end Span

end SuiteIndex
