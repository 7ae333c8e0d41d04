import Mathlib.Data.List.DropRight
import Mathlib.Data.List.TakeWhile
import SuiteIndex.Text

/-! # Trimming

A text is its trimmed form with white space on both sides, and the trimmed form has none
at its ends.
-/

namespace SuiteIndex.Text

theorem drop_length_takeWhile {α : Type} (p : α → Bool) (l : List α) :
    l.drop (l.takeWhile p).length = l.dropWhile p := by
  induction l with
  | nil => rfl
  | cons a l ih =>
    by_cases h : p a = true
    · simp [h, ih]
    · simp [h]

theorem trim_eq (t : Text) : trim t = (t.dropWhile isBlank).rdropWhile isBlank := rfl

theorem exists_trim_append (t : Text) :
    ∃ behind, t = t.takeWhile isBlank ++ trim t ++ behind ∧ ∀ c ∈ behind, isBlank c = true := by
  refine ⟨(t.dropWhile isBlank).rtakeWhile isBlank, ?_, fun c hc => List.mem_rtakeWhile_imp hc⟩
  rw [trim_eq, List.append_assoc, List.rdropWhile_append_rtakeWhile,
    List.takeWhile_append_dropWhile]

theorem indentation_add_length_trim_le (t : Text) :
    indentation t + (trim t).length ≤ t.length := by
  obtain ⟨behind, ht, -⟩ := exists_trim_append t
  have hlength := congrArg List.length ht
  simp only [List.length_append] at hlength
  rw [indentation]
  omega

theorem indentation_append {lead t : Text} (hlead : ∀ c ∈ lead, isBlank c = true)
    (hhead : ∀ c, t.head? = some c → isBlank c = false) :
    indentation (lead ++ t) = lead.length := by
  rw [indentation, List.takeWhile_append_of_pos hlead]
  cases t with
  | nil => simp
  | cons c t => simp [hhead c rfl]

theorem indentation_eq_zero {t : Text} (hhead : ∀ c, t.head? = some c → isBlank c = false) :
    indentation t = 0 := by
  have hnil : ∀ c ∈ ([] : Text), isBlank c = true := by simp
  exact indentation_append hnil hhead

theorem length_trim_le (t : Text) : (trim t).length ≤ t.length :=
  (Nat.le_add_left _ _).trans (indentation_add_length_trim_le t)

theorem isBlank_of_trim_eq_nil {t : Text} (h : trim t = []) : ∀ c ∈ t, isBlank c = true := by
  obtain ⟨behind, ht, hbehind⟩ := exists_trim_append t
  intro c hc
  rw [ht, h, List.append_nil, List.mem_append] at hc
  rcases hc with hc | hc
  · exact List.mem_takeWhile_imp hc
  · exact hbehind c hc

theorem isBlank_head_trim {t : Text} {c : Char} (h : (trim t).head? = some c) :
    isBlank c = false := by
  obtain ⟨behind, hbehind⟩ := List.rdropWhile_prefix isBlank (l := t.dropWhile isBlank)
  rw [← trim_eq] at hbehind
  have hhead : (t.dropWhile isBlank).head? = some c := by
    rw [← hbehind, List.head?_append, h]
    rfl
  have hne : t.dropWhile isBlank ≠ [] := by
    intro hnil
    simp [hnil] at hhead
  have hnot := List.head_dropWhile_not isBlank hne
  rw [List.head?_eq_some_head hne] at hhead
  rwa [Option.some.inj hhead] at hnot

theorem isBlank_getLast_trim {t : Text} {c : Char} (h : (trim t).getLast? = some c) :
    isBlank c = false := by
  rw [trim_eq] at h
  have hne : (t.dropWhile isBlank).rdropWhile isBlank ≠ [] := by
    intro hnil
    simp [hnil] at h
  have hnot := List.rdropWhile_last_not isBlank (t.dropWhile isBlank) hne
  rw [List.getLast?_eq_some_getLast hne] at h
  rw [Option.some.inj h] at hnot
  simpa using hnot

theorem trim_append {lead t behind : Text} (hlead : ∀ c ∈ lead, isBlank c = true)
    (hhead : ∀ c, t.head? = some c → isBlank c = false)
    (hlast : ∀ c, t.getLast? = some c → isBlank c = false)
    (hbehind : ∀ c ∈ behind, isBlank c = true) : trim (lead ++ t ++ behind) = t := by
  rw [trim_eq, List.append_assoc, List.dropWhile_append_of_pos hlead]
  cases t with
  | nil => simp [List.dropWhile_eq_nil_iff.2 hbehind]
  | cons c t =>
    have hc : ¬ isBlank c = true := by simp [hhead c rfl]
    rw [List.cons_append, List.dropWhile_cons_of_neg hc, ← List.cons_append, List.rdropWhile,
      List.reverse_append, List.dropWhile_append_of_pos (by simpa using hbehind)]
    obtain ⟨init, last, hsplit⟩ := (List.eq_nil_or_concat (c :: t)).resolve_left (by simp)
    rw [List.concat_eq_append] at hsplit
    rw [hsplit] at hlast ⊢
    simp [hlast last (by simp)]

theorem trim_append_left {lead t : Text} (hlead : ∀ c ∈ lead, isBlank c = true)
    (hhead : ∀ c, t.head? = some c → isBlank c = false)
    (hlast : ∀ c, t.getLast? = some c → isBlank c = false) : trim (lead ++ t) = t := by
  have hnil : ∀ c ∈ ([] : Text), isBlank c = true := by simp
  simpa using trim_append hlead hhead hlast hnil

theorem trim_eq_self {t : Text} (hhead : ∀ c, t.head? = some c → isBlank c = false)
    (hlast : ∀ c, t.getLast? = some c → isBlank c = false) : trim t = t := by
  have hnil : ∀ c ∈ ([] : Text), isBlank c = true := by simp
  exact trim_append_left hnil hhead hlast

theorem trim_eq_self_of_forall {t : Text} (h : ∀ c ∈ t, isBlank c = false) : trim t = t :=
  trim_eq_self (fun c hc => h c (List.mem_of_mem_head? hc)) fun c hc =>
    h c (List.mem_of_getLast? hc)

end SuiteIndex.Text
