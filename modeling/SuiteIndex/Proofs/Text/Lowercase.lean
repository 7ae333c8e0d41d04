import Mathlib.Data.List.TakeWhile
import SuiteIndex.Text.Lowercase

/-! # Lower-case texts

The length of a lowered text adds up over its parts, although the form of a sigma depends
on what stands around it. So a text is never lowered to the same form as a longer one that
ends with it. The start of a text is lowered to the start of its lower-case form, unless it
breaks a word off behind a capital sigma. In ASCII the letters are lowered one by one.
-/

namespace SuiteIndex.Text

/-- What a character becomes, given the characters before it, nearest first, and behind it. -/
def lowerAt (seen : Text) (c : Char) (behind : Text) : Text :=
  if c = capitalSigma then
    [if meetsCased seen && !meetsCased behind then finalSigma else smallSigma]
  else lowerChar c

theorem lowerAfter_cons (seen : Text) (c : Char) (t : Text) :
    lowerAfter seen (c :: t) = lowerAt seen c t ++ lowerAfter (c :: seen) t := rfl

theorem length_lowerAt (seen : Text) (c : Char) (behind : Text) :
    (lowerAt seen c behind).length = (lowerAt [] c []).length := by
  unfold lowerAt
  split <;> rfl

theorem lowerAt_ne_nil (seen : Text) (c : Char) (behind : Text) : lowerAt seen c behind ≠ [] := by
  unfold lowerAt lowerChar
  dsimp only
  split
  · simp
  · repeat' split
    all_goals simp

theorem length_lowerAfter (seen t : Text) :
    (lowerAfter seen t).length = (t.flatMap fun c => lowerAt [] c []).length := by
  induction t generalizing seen with
  | nil => rfl
  | cons c t ih => simp [lowerAfter_cons, length_lowerAt seen c t, ih]

theorem length_lower_append (s t : Text) :
    (lower (s ++ t)).length = (lower s).length + (lower t).length := by
  simp [lower, length_lowerAfter]

theorem lower_ne_nil {t : Text} (h : t ≠ []) : lower t ≠ [] := by
  obtain ⟨c, t, rfl⟩ := List.exists_cons_of_ne_nil h
  simp [lower, lowerAfter_cons, lowerAt_ne_nil]

theorem lower_append_ne {s : Text} (hs : s ≠ []) (t : Text) : lower (s ++ t) ≠ lower t := by
  intro h
  have hlength := congrArg List.length h
  have hpositive := List.length_pos_iff.2 (lower_ne_nil hs)
  rw [length_lower_append] at hlength
  omega

open CaseTable (within ignorableRanges)

theorem meetsCased_append_of_ignorable {t : Text}
    (h : ∀ c ∈ t, within ignorableRanges c.toNat = true) (behind : Text) :
    meetsCased (t ++ behind) = meetsCased behind := by
  rw [meetsCased, List.dropWhile_append_of_pos h]
  rfl

theorem meetsCased_append {t : Text}
    (h : ¬ ∀ c ∈ t, within ignorableRanges c.toNat = true) (behind : Text) :
    meetsCased (t ++ behind) = meetsCased t := by
  have hne : t.dropWhile (within ignorableRanges ·.toNat) ≠ [] :=
    fun hnil => h (List.dropWhile_eq_nil_iff.1 hnil)
  obtain ⟨c, rest, hrest⟩ := List.exists_cons_of_ne_nil hne
  simp [meetsCased, List.dropWhile_append, hrest]

/-- The start ends inside a word right behind a capital sigma, so that the sigma is the last
letter of the start but not of the word. -/
def BreaksWord (start behind : Text) : Prop :=
  ∃ front skipped, start = front ++ capitalSigma :: skipped ∧
    (∀ c ∈ skipped, within ignorableRanges c.toNat = true) ∧
    meetsCased front.reverse = true ∧ meetsCased behind = true

theorem not_breaksWord_of_not_mem {start : Text} (h : capitalSigma ∉ start) (behind : Text) :
    ¬ BreaksWord start behind := by
  rintro ⟨front, skipped, rfl, -⟩
  simp at h

theorem lowerAt_append {seen t behind : Text} {c : Char}
    (h : c = capitalSigma → (∀ c ∈ t, within ignorableRanges c.toNat = true) →
      meetsCased seen = true → meetsCased behind = false) :
    lowerAt seen c (t ++ behind) = lowerAt seen c t := by
  unfold lowerAt
  by_cases hc : c = capitalSigma
  · rw [if_pos hc, if_pos hc]
    by_cases hskipped : ∀ c ∈ t, within ignorableRanges c.toNat = true
    · have hnone : meetsCased t = false := by
        rw [← List.append_nil t, meetsCased_append_of_ignorable hskipped]
        rfl
      rw [meetsCased_append_of_ignorable hskipped, hnone]
      cases hseen : meetsCased seen with
      | false => rfl
      | true => rw [h hc hskipped hseen]
    · rw [meetsCased_append hskipped]
  · rw [if_neg hc, if_neg hc]

theorem lowerAfter_prefix_append {seen start behind : Text}
    (h : ∀ front skipped, start = front ++ capitalSigma :: skipped →
      (∀ c ∈ skipped, within ignorableRanges c.toNat = true) →
      meetsCased (front.reverse ++ seen) = true → meetsCased behind = false) :
    lowerAfter seen start <+: lowerAfter seen (start ++ behind) := by
  induction start generalizing seen with
  | nil => exact List.nil_prefix
  | cons c t ih =>
    have hc : lowerAt seen c (t ++ behind) = lowerAt seen c t :=
      lowerAt_append fun hsigma hskipped hcased => h [] t (by rw [hsigma]; rfl) hskipped hcased
    rw [List.cons_append, lowerAfter_cons, lowerAfter_cons, hc, List.prefix_append_right_inj]
    refine ih fun front skipped ht hskipped hcased => ?_
    refine h (c :: front) skipped (by rw [ht]; rfl) hskipped ?_
    simpa using hcased

theorem lower_prefix_append {start behind : Text} (h : ¬ BreaksWord start behind) :
    lower start <+: lower (start ++ behind) := by
  refine lowerAfter_prefix_append fun front skipped hstart hskipped hcased => ?_
  rw [← Bool.not_eq_true]
  intro hbehind
  rw [List.append_nil] at hcased
  exact h ⟨front, skipped, hstart, hskipped, hcased, hbehind⟩

def isAscii (t : Text) : Bool :=
  t.all (·.toNat < 128)

theorem lowerAfter_of_isAscii {t : Text} (h : t.isAscii = true) (seen : Text) :
    lowerAfter seen t = t.map Char.toLower := by
  induction t generalizing seen with
  | nil => rfl
  | cons c t ih =>
    obtain ⟨hc, ht⟩ : c.toNat < 128 ∧ isAscii t = true := by simpa [isAscii] using h
    have hsigma : c ≠ capitalSigma := by
      rintro rfl
      exact absurd hc (by decide)
    rw [lowerAfter, if_neg hsigma, lowerChar, if_pos hc, ih ht]
    rfl

theorem sameIgnoringAsciiCase_iff {s t : Text} (hs : s.isAscii = true) (ht : t.isAscii = true) :
    sameIgnoringAsciiCase s t = true ↔ lower s = lower t := by
  rw [lower, lower, lowerAfter_of_isAscii hs, lowerAfter_of_isAscii ht, sameIgnoringAsciiCase,
    decide_eq_true_eq]

theorem toNat_toLower_lt_iff (c : Char) : c.toLower.toNat < 128 ↔ c.toNat < 128 := by
  delta Char.toLower
  split
  · rename_i hc
    have hupper : c.val.toNat ≤ 90 := hc.2
    have hsum : (c.val + ('a'.val - 'A'.val)).toNat = c.val.toNat + 32 := by
      rw [UInt32.toNat_add]
      exact Nat.mod_eq_of_lt (by omega : c.val.toNat + 32 < 2 ^ 32)
    show (c.val + ('a'.val - 'A'.val)).toNat < 128 ↔ c.val.toNat < 128
    omega
  · rfl

theorem isAscii_of_sameIgnoringAsciiCase {s t : Text} (hs : s.isAscii = true)
    (h : sameIgnoringAsciiCase s t = true) : t.isAscii = true := by
  have hlowered (u : Text) : isAscii (u.map Char.toLower) = u.isAscii := by
    simp only [isAscii, List.all_map, Function.comp_def, toNat_toLower_lt_iff]
  rw [← hlowered, ← of_decide_eq_true h, hlowered]
  exact hs
end SuiteIndex.Text
