import SuiteIndex.Text

/-! # Cutting around a mark

A text with a mark in it has exactly one cut around a mark with no other mark behind it.
The pieces around the first mark, or around the first occurrence of a part, make up the
text.
-/

namespace SuiteIndex.Text

theorem getElem?_add {α : Type} (front behind : List α) (i : Nat) :
    (front ++ behind)[front.length + i]? = behind[i]? := by
  rw [List.getElem?_append_right (Nat.le_add_right _ i), Nat.add_sub_cancel_left]

section

variable {α : Type} [DecidableEq α] {mark : α}

theorem splitLast_eq_none {t : List α} (h : mark ∉ t) : splitLast mark t = none := by
  induction t with
  | nil => rfl
  | cons c t ih =>
    rw [List.mem_cons, not_or] at h
    simp [splitLast, ih h.2, Ne.symm h.1]

theorem splitLast_append {behind : List α} (h : mark ∉ behind) (front : List α) :
    splitLast mark (front ++ mark :: behind) = some (front, behind) := by
  induction front with
  | nil => simp [splitLast, splitLast_eq_none h]
  | cons c front ih => simp [splitLast, ih]

theorem exists_last_mark {t : List α} (h : mark ∈ t) :
    ∃ front behind, t = front ++ mark :: behind ∧ mark ∉ behind := by
  induction t with
  | nil => cases h
  | cons c t ih =>
    by_cases hmark : mark ∈ t
    · obtain ⟨front, behind, rfl, hbehind⟩ := ih hmark
      exact ⟨c :: front, behind, rfl, hbehind⟩
    · obtain rfl : mark = c := (List.mem_cons.1 h).resolve_right hmark
      exact ⟨[], t, rfl, hmark⟩

end

variable {mark : Char}

theorem eq_append_of_splitFirst {t front behind : Text}
    (h : splitFirst mark t = some (front, behind)) : t = front ++ mark :: behind := by
  induction t generalizing front with
  | nil => cases h
  | cons c t ih =>
    rw [splitFirst] at h
    split at h
    · rename_i hmark
      cases h
      rw [hmark]
      rfl
    · obtain ⟨⟨before, behind⟩, hsplit, heq⟩ := Option.map_eq_some_iff.1 h
      cases heq
      rw [ih hsplit]
      rfl

theorem splitFirst_eq_none {t : Text} (h : mark ∉ t) : splitFirst mark t = none := by
  induction t with
  | nil => rfl
  | cons c t ih =>
    rw [List.mem_cons, not_or] at h
    simp [splitFirst, ih h.2, Ne.symm h.1]

theorem splitFirst_append {front : Text} (h : mark ∉ front) (behind : Text) :
    splitFirst mark (front ++ mark :: behind) = some (front, behind) := by
  induction front with
  | nil => simp [splitFirst]
  | cons c front ih =>
    rw [List.mem_cons, not_or] at h
    simp [splitFirst, ih h.2, Ne.symm h.1]

theorem eq_append_of_find? {part t : Text} {i : Nat} (h : find? part t = some i) :
    ∃ front behind, t = front ++ part ++ behind ∧ front.length = i := by
  induction t generalizing i with
  | nil =>
    rw [find?] at h
    split at h
    · rename_i hempty
      cases h
      exact ⟨[], [], by simpa using hempty, rfl⟩
    · cases h
  | cons c t ih =>
    rw [find?] at h
    split at h
    · rename_i hstart
      cases h
      obtain ⟨behind, hbehind⟩ := List.isPrefixOf_iff_prefix.1 hstart
      exact ⟨[], behind, hbehind.symm, rfl⟩
    · obtain ⟨k, hk, rfl⟩ := Option.map_eq_some_iff.1 h
      obtain ⟨front, behind, rfl, rfl⟩ := ih hk
      exact ⟨c :: front, behind, rfl, rfl⟩

theorem find?_append {c : Char} {part front : Text} (h : c ∉ front) (behind : Text) :
    find? (c :: part) (front ++ (c :: part ++ behind)) = some front.length := by
  induction front with
  | nil => simp [find?]
  | cons d front ih =>
    rw [List.mem_cons, not_or] at h
    have hstart : ¬ (c :: part).isPrefixOf (d :: (front ++ (c :: part ++ behind))) = true := by
      simp [h.1]
    rw [List.cons_append, find?, if_neg hstart, ih h.2]
    rfl

theorem find?_ne_none {part t : Text} (h : part <:+: t) : find? part t ≠ none := by
  induction t with
  | nil =>
    rw [List.infix_nil] at h
    simp [find?, h]
  | cons c t ih =>
    rw [find?]
    split
    · exact Option.some_ne_none 0
    · rename_i hstart
      rw [List.isPrefixOf_iff_prefix] at hstart
      rcases List.infix_cons_iff.1 h with hprefix | hinfix
      · exact absurd hprefix hstart
      · simpa using ih hinfix

theorem contains_iff {part t : Text} : contains part t = true ↔ part <:+: t := by
  rw [contains, Option.isSome_iff_exists]
  constructor
  · rintro ⟨i, hfind⟩
    obtain ⟨front, behind, rfl, -⟩ := eq_append_of_find? hfind
    exact ⟨front, behind, rfl⟩
  · exact fun h => Option.ne_none_iff_exists'.1 (find?_ne_none h)

theorem startsWith_singleton (c : Char) (t : Text) :
    startsWith [c] t = decide (t.head? = some c) := by
  cases t with
  | nil => rfl
  | cons d t =>
    rw [Bool.eq_iff_iff, decide_eq_true_iff, List.head?_cons, Option.some_inj, eq_comm (a := d)]
    simp [startsWith]

@[simp] theorem sameIgnoringAsciiCase_self (t : Text) : sameIgnoringAsciiCase t t = true := by
  simp [sameIgnoringAsciiCase]

end SuiteIndex.Text
