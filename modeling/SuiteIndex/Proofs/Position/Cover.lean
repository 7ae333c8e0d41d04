import Mathlib.Order.BoundedOrder.Lattice
import Mathlib.Order.WithBot
import SuiteIndex.Proofs.Position

/-! # Joining places

Enclosure is a partial order on all spans, those that stop before they start included, and
the cover of two spans is their join. The synthetic location can be put below all spans.
Covering locations is the join there, and the synthetic location its identity.
-/

namespace SuiteIndex

namespace Span

instance : PartialOrder Span where
  le_antisymm a b hab hba := by
    cases a
    cases b
    exact congrArg₂ mk (le_antisymm hba.1 hab.1) (le_antisymm hab.2 hba.2)

instance : SemilatticeSup Span where
  sup := cover
  le_sup_left := le_cover_left
  le_sup_right := le_cover_right
  sup_le _ _ _ ha hb := cover_le_iff.2 ⟨ha, hb⟩

theorem stop_cover_lt_iff {a b : Span} {p : Position} :
    (a.cover b).stop < p ↔ a.stop < p ∧ b.stop < p := by
  rw [cover, Position.later_eq_max, max_lt_iff]

theorem lt_start_cover_iff {a b : Span} {p : Position} :
    p < (a.cover b).start ↔ p < a.start ∧ p < b.start := by
  rw [cover, Position.earlier_eq_min, lt_min_iff]

-- The span that encloses the other is the greater one, so this order is the one above reversed.
instance : IsPartialOrder Span (fun a b => a.encloses b = true) where
  refl _ := encloses_eq_true.2 le_rfl
  trans _ _ _ hab hbc :=
    encloses_eq_true.2 ((encloses_eq_true.1 hbc).trans (encloses_eq_true.1 hab))
  antisymm _ _ hab hba := le_antisymm (encloses_eq_true.1 hba) (encloses_eq_true.1 hab)

end Span

namespace Location

/-- A location in the order of enclosure, with the synthetic one below all spans. -/
def rank : Location → WithBot Span
  | parsed span => span
  | synthetic => ⊥

theorem rank_injective : Function.Injective rank := by
  intro a b h
  cases a with
  | parsed a =>
    cases b with
    | parsed b => exact congrArg parsed (WithBot.coe_inj.1 h)
    | synthetic => exact absurd h WithBot.coe_ne_bot
  | synthetic =>
    cases b with
    | parsed b => exact absurd h WithBot.bot_ne_coe
    | synthetic => rfl

theorem rank_cover (a b : Location) : (a.cover b).rank = a.rank ⊔ b.rank := by
  cases a with
  | parsed a =>
    cases b with
    | parsed b => exact WithBot.coe_sup a b
    | synthetic => exact (sup_bot_eq _).symm
  | synthetic => exact (bot_sup_eq _).symm

theorem cover_assoc (a b c : Location) : (a.cover b).cover c = a.cover (b.cover c) := by
  apply rank_injective
  simp only [rank_cover, sup_assoc]

theorem cover_comm (a b : Location) : a.cover b = b.cover a := by
  apply rank_injective
  simp only [rank_cover, sup_comm]

theorem cover_self (a : Location) : a.cover a = a := by
  apply rank_injective
  simp only [rank_cover, sup_idem]

@[simp] theorem synthetic_cover (a : Location) : synthetic.cover a = a := rfl

@[simp] theorem cover_synthetic (a : Location) : a.cover synthetic = a :=
  cover_comm a synthetic

instance : Std.Associative cover := ⟨cover_assoc⟩

instance : Std.Commutative cover := ⟨cover_comm⟩

instance : Std.IdempotentOp cover := ⟨cover_self⟩

instance : Std.LawfulIdentity cover synthetic where
  left_id := synthetic_cover
  right_id := cover_synthetic

end Location

/-- A span contains the positions between its ends in reading order, and those of every span
that it encloses. Enclosure is a partial order in which the cover of two spans is the least
that encloses both. Covering locations is associative, commutative and idempotent, and the
synthetic location changes nothing. -/
theorem places_form_semilattice :
    (∀ (span : Span) (p : Position), span.contains p = true ↔
      toLex (span.start.line, span.start.column) ≤ toLex (p.line, p.column) ∧
        toLex (p.line, p.column) ≤ toLex (span.stop.line, span.stop.column)) ∧
      (∀ a b : Span, a.encloses b = true → ∀ p, b.contains p = true → a.contains p = true) ∧
      (∀ a b c : Span, c.encloses (a.cover b) = true ↔
        c.encloses a = true ∧ c.encloses b = true) ∧
      IsPartialOrder Span (fun a b => a.encloses b = true) ∧
      Std.Associative Location.cover ∧ Std.Commutative Location.cover ∧
      Std.IdempotentOp Location.cover ∧ Std.LawfulIdentity Location.cover .synthetic := by
  refine ⟨fun _ _ => Span.contains_eq_true, fun a b h p => ?_, fun a b c => ?_, inferInstance,
    inferInstance, inferInstance, inferInstance, inferInstance⟩
  · exact Span.contains_of_le (Span.encloses_eq_true.1 h)
  · simp only [Span.encloses_eq_true, Span.cover_le_iff]

/-- The last column of a span over several lines, inside a span that goes on below it. -/
theorem contains_last_column_of_enclosed :
    let outer : Span := ⟨⟨0, 4⟩, ⟨3, 2⟩⟩
    let inner : Span := ⟨⟨1, 9⟩, ⟨2, 7⟩⟩
    outer.encloses inner = true ∧ inner.contains ⟨2, 7⟩ = true ∧
      outer.contains ⟨2, 7⟩ = true :=
  ⟨by decide, by decide,
    places_form_semilattice.2.1 _ ⟨⟨1, 9⟩, ⟨2, 7⟩⟩ (by decide) _ (by decide)⟩

/-- A span that stops before it starts contains no position, and still has its place in the order
of enclosure. -/
example : let inverted : Span := ⟨⟨2, 0⟩, ⟨1, 5⟩⟩
    inverted.contains ⟨1, 7⟩ = false ∧ inverted.encloses (.point ⟨1, 7⟩) = false ∧
      (Span.point ⟨1, 7⟩).encloses inverted = true := by
  decide

end SuiteIndex
