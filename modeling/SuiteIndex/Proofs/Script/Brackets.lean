import SuiteIndex.Proofs.Text.Split
import SuiteIndex.Proofs.Text.Trim
import SuiteIndex.Script.Signature

/-! # Brackets on one line

Three scans look for brackets. The first finds the line on which a signature is complete, the
second the bracket that closes the parameters, and the third the commas between them; only the
third knows quotes. Each of them has a class of texts on which it finds what stands there:
lines that are closed, texts whose brackets pair up, and parameters that are whole.
-/

namespace SuiteIndex.Script

/-- The depth of brackets at the end of a line. Inside brackets a hash sign ends the line. -/
def depthBehind (depth : Nat) : Text → Nat
  | [] => depth
  | c :: t => if c = '#' && 0 < depth then depth else depthBehind (depthAfter depth c) t

section

variable {number column depth : Nat} {progress : Progress} {c : Char} {s t : Text}

theorem depth_glyphsOf (number column : Nat) (progress : Progress) (t : Text) :
    (glyphsOf number column progress t).2.depth = depthBehind progress.depth t := by
  fun_induction glyphsOf number column progress t with
  | case1 => rfl
  | case2 column progress c t hcut => rw [depthBehind, if_pos hcut]
  | case3 column progress c t hcut glyphs last hrest ih =>
    rw [hrest] at ih
    rw [depthBehind, if_neg hcut]
    exact ih

theorem opened_glyphsOf (number column : Nat) (t : Text) (h : progress.opened = true) :
    (glyphsOf number column progress t).2.opened = true := by
  fun_induction glyphsOf number column progress t with
  | case1 => exact h
  | case2 => exact h
  | case3 column progress c t _ glyphs last hrest ih =>
    rw [hrest] at ih
    exact ih (by rw [h, Bool.true_or])

theorem depthAfter_zero (hc : isOpening c = false) : depthAfter 0 c = 0 := by
  simp [depthAfter, hc]

theorem depthBehind_zero (h : ∀ c ∈ t, isOpening c = false) : depthBehind 0 t = 0 := by
  induction t with
  | nil => rfl
  | cons c t ih =>
    obtain ⟨hc, ht⟩ := List.forall_mem_cons.1 h
    simp [depthBehind, depthAfter_zero hc, ih ht]

/-- A bracket on the line is seen, since nothing ends the line in front of the first one. -/
theorem opened_glyphsOf_of_mem (hc : isOpening c = true) (h : c ∈ t) (number column : Nat) :
    (glyphsOf number column ⟨0, false⟩ t).2.opened = true := by
  induction t generalizing column with
  | nil => cases h
  | cons d t ih =>
    simp only [glyphsOf, lt_self_iff_false, decide_false, Bool.and_false, Bool.false_eq_true,
      if_false, Bool.false_or]
    cases hd : isOpening d with
    | true => exact opened_glyphsOf _ _ _ rfl
    | false =>
      have hmem : c ∈ t := (List.mem_cons.1 h).resolve_left fun heq => by
        rw [← heq, hc] at hd
        cases hd
      rw [depthAfter_zero hd]
      exact ih hmem (column + 1)

theorem isDone_glyphsOf (hc : isOpening c = true) (h : c ∈ t) (number column : Nat) :
    (glyphsOf number column ⟨0, false⟩ t).2.isDone = true ↔ depthBehind 0 t = 0 := by
  rw [Progress.isDone, opened_glyphsOf_of_mem hc h, Bool.true_and, decide_eq_true_iff,
    depth_glyphsOf]

theorem map_char_glyphsOf (number column : Nat) (h : depthBehind progress.depth t = 0) :
    (glyphsOf number column progress t).1.map Glyph.char = t := by
  fun_induction glyphsOf number column progress t with
  | case1 => rfl
  | case2 column progress c t hcut =>
    rw [depthBehind, if_pos hcut] at h
    simp [h] at hcut
  | case3 column progress c t hcut glyphs last hrest ih =>
    rw [depthBehind, if_neg hcut] at h
    rw [hrest] at ih
    rw [List.map_cons, ih h]

theorem signature_closed (hc : isOpening c = true) (h : c ∈ t) (hclosed : depthBehind 0 t = 0)
    (number : Nat) (rest : List Text) :
    signature number ⟨0, false⟩ (t :: rest) = ((glyphsOf number 0 ⟨0, false⟩ t).1, 1) := by
  have hdone := (isDone_glyphsOf hc h number 0).2 hclosed
  simp only [signature, hdone, if_true]

theorem count_signature (hdepth : 0 < progress.depth) {lines : List Text}
    (h : ∀ line ∈ lines, depthBehind progress.depth line = progress.depth) (number : Nat) :
    (signature number progress lines).2 = lines.length := by
  induction lines generalizing number progress with
  | nil => rfl
  | cons line lines ih =>
    obtain ⟨hline, hlines⟩ := List.forall_mem_cons.1 h
    have hnext : (glyphsOf number 0 progress line).2.depth = progress.depth := by
      rw [depth_glyphsOf, hline]
    have hopen : (glyphsOf number 0 progress line).2.isDone = false := by
      simp [Progress.isDone, hnext, hdepth.ne']
    have hcount := ih (hnext ▸ hdepth) (hnext.symm ▸ hlines) (number + 1)
    simp only [signature, hopen, Bool.false_eq_true, if_false, hcount, List.length_cons]

/-- A line that is not closed takes the lines below it that leave its bracket open. -/
theorem count_signature_open (hopen : depthBehind 0 t ≠ 0) {lines : List Text}
    (h : ∀ line ∈ lines, depthBehind (depthBehind 0 t) line = depthBehind 0 t) (number : Nat) :
    (signature number ⟨0, false⟩ (t :: lines)).2 = lines.length + 1 := by
  have hdepth : (glyphsOf number 0 ⟨0, false⟩ t).2.depth = depthBehind 0 t := depth_glyphsOf ..
  have hdone : (glyphsOf number 0 ⟨0, false⟩ t).2.isDone = false := by
    simp [Progress.isDone, hdepth, hopen]
  have hcount := count_signature (hdepth ▸ Nat.pos_of_ne_zero hopen) (hdepth.symm ▸ h) (number + 1)
  simp only [signature, hdone, Bool.false_eq_true, if_false, hcount]

theorem exists_closing? (hdepth : 0 < depth) (h : depthBehind depth t = 0) (index : Nat) :
    ∃ closed, closing? depth index t = some closed := by
  induction t generalizing depth index with
  | nil => exact absurd h hdepth.ne'
  | cons c t ih =>
    rw [depthBehind] at h
    split at h
    · exact absurd h hdepth.ne'
    · rw [closing?]
      split
      · exact ⟨index, rfl⟩
      · rename_i hcloses
        refine ih ?_ h (index + 1)
        rw [depthAfter]
        split
        · exact Nat.succ_pos depth
        · split
          · rename_i hclosing
            simp [hclosing] at hcloses
            omega
          · exact hdepth

end

/-- Whether all brackets of a text pair up, also those in quotes. -/
def pairsUp (depth : Nat) : Text → Bool
  | [] => depth = 0
  | c :: t => (!isClosing c || 0 < depth) && pairsUp (depthAfter depth c) t

theorem depthAfter_succ {c : Char} {depth : Nat} (h : isClosing c = true → 0 < depth) :
    depthAfter (depth + 1) c = depthAfter depth c + 1 := by
  rw [depthAfter, depthAfter]
  split
  · rfl
  · split
    · rename_i hclosing
      have hpos := h hclosing
      omega
    · rfl

theorem pairsUp_cons {depth : Nat} {c : Char} {s : Text} (h : pairsUp depth (c :: s) = true) :
    (isClosing c = true → 0 < depth) ∧ pairsUp (depthAfter depth c) s = true := by
  simp only [pairsUp, Bool.and_eq_true, Bool.or_eq_true, Bool.not_eq_true', decide_eq_true_iff] at h
  exact ⟨fun hclosing => h.1.resolve_left (by simp [hclosing]), h.2⟩

/-- What pairs up is passed over in the search for the bracket that closes an earlier one. -/
theorem closing?_append {depth : Nat} {s : Text} (hs : pairsUp depth s = true) (index : Nat)
    (t : Text) : closing? (depth + 1) index (s ++ t) = closing? 1 (index + s.length) t := by
  induction s generalizing depth index with
  | nil =>
    obtain rfl : depth = 0 := by simpa [pairsUp] using hs
    rfl
  | cons c s ih =>
    obtain ⟨hpos, hs⟩ := pairsUp_cons hs
    have hpasses : ¬ (isClosing c && decide (depth + 1 ≤ 1)) = true := by
      intro h
      have hboth := Bool.and_eq_true_iff.1 h
      have := hpos hboth.1
      have := of_decide_eq_true hboth.2
      omega
    rw [List.cons_append, closing?, if_neg hpasses, depthAfter_succ hpos, ih hs, List.length_cons,
      Nat.add_assoc, Nat.add_comm 1]

/-- What pairs up leaves the depth as it is, if no hash sign ends the line in it. -/
theorem depthBehind_append {depth : Nat} {s : Text} (hs : pairsUp depth s = true) (hhash : '#' ∉ s)
    (t : Text) : depthBehind (depth + 1) (s ++ t) = depthBehind 1 t := by
  induction s generalizing depth with
  | nil =>
    obtain rfl : depth = 0 := by simpa [pairsUp] using hs
    rfl
  | cons c s ih =>
    obtain ⟨hpos, hs⟩ := pairsUp_cons hs
    rw [List.mem_cons, not_or] at hhash
    have hpasses : ¬ (c = '#' && decide (0 < depth + 1)) = true := by simp [Ne.symm hhash.1]
    rw [List.cons_append, depthBehind, if_neg hpasses, depthAfter_succ hpos, ih hs hhash.2]

/-- Whether all brackets and quotes of a text are closed and every comma stands in one of them.
Brackets in quotes do not count. -/
def isWhole (depth : Nat) (quote : Option Char) : Text → Bool
  | [] => depth = 0 && quote.isNone
  | c :: t =>
    match quote with
    | none =>
      if c = ',' then 0 < depth && isWhole depth none t
      else if c = '\x27' || c = '\x22' then isWhole depth (some c) t
      else isWhole (depthAfter depth c) none t
    | some q => isWhole depth (if c = q then none else some q) t

theorem depthAfter_comma (depth : Nat) : depthAfter depth ',' = depth := rfl

theorem parameters_cons {depth : Nat} {quote : Option Char} {c : Char} {s : Text}
    (h : isWhole depth quote (c :: s) = true) (index : Nat) :
    ∃ below within, isWhole below within s = true ∧
      ∀ t, parameters index depth quote (c :: t) =
        consParameter index c (parameters (index + 1) below within t) := by
  cases quote with
  | some q => exact ⟨depth, if c = q then none else some q, h, fun t => by rw [parameters]⟩
  | none =>
    rw [isWhole] at h
    by_cases hcomma : c = ','
    · subst hcomma
      rw [if_pos rfl, Bool.and_eq_true, decide_eq_true_iff] at h
      exact ⟨depth, none, h.2, fun t => by simp [parameters, h.1.ne', depthAfter_comma]⟩
    · rw [if_neg hcomma] at h
      by_cases hquote : (c = '\x27' || c = '\x22') = true
      · rw [if_pos hquote] at h
        exact ⟨depth, some c, h, fun t => by simp only [parameters, hcomma, hquote, decide_false,
          Bool.false_and, Bool.false_eq_true, if_false, if_true]⟩
      · rw [if_neg hquote] at h
        exact ⟨depthAfter depth c, none, h, fun t => by simp only [parameters, hcomma, hquote,
          decide_false, Bool.false_and, Bool.false_eq_true, if_false]⟩

theorem parameters_whole {depth : Nat} {quote : Option Char} {t : Text}
    (h : isWhole depth quote t = true) (index : Nat) :
    parameters index depth quote t = [(index, t)] := by
  induction t generalizing index depth quote with
  | nil => rfl
  | cons c t ih =>
    obtain ⟨below, within, hwhole, hcons⟩ := parameters_cons h index
    rw [hcons, ih hwhole]
    rfl

theorem parameters_append {depth : Nat} {quote : Option Char} {piece : Text}
    (h : isWhole depth quote piece = true) (index : Nat) (rest : Text) :
    parameters index depth quote (piece ++ ',' :: rest) =
      (index, piece) :: parameters (index + piece.length + 1) 0 none rest := by
  induction piece generalizing index depth quote with
  | nil =>
    rw [isWhole, Bool.and_eq_true, decide_eq_true_iff, Option.isNone_iff_eq_none] at h
    obtain ⟨rfl, rfl⟩ := h
    simp [parameters]
  | cons c piece ih =>
    obtain ⟨below, within, hwhole, hcons⟩ := parameters_cons h index
    rw [List.cons_append, hcons, ih hwhole, List.length_cons, Nat.add_right_comm index,
      ← Nat.add_assoc index]
    rfl

/-- The keyword of a signature whose parameters are closed at the index `closed`. -/
theorem keyword?_eq {front name t : Text} {closed : Nat} {glyphs : List Glyph} (hd : 'd' ∉ front)
    (hne : name ≠ []) (htrim : Text.trim name = name) (hname : '(' ∉ name)
    (htext : glyphs.map Glyph.char = front ++ "def ".toList ++ name ++ '(' :: t)
    (hclosed : closing? 1 (front.length + 4 + name.length + 1) t = some closed)
    (moduleName : Text) (number : Nat) (line : Text) :
    let start := front.length + 4
    let opened := start + name.length
    let brackets : Location := .parsed (spanOf glyphs opened (closed + 1))
    keyword? moduleName number line glyphs =
      if Text.startsWith ['_'] name then none
      else some { UserKeyword.named (.declared moduleName ⟨none, name,
            .parsed (spanOf glyphs start (start + name.length))⟩) with
          arguments := some {
            id := ⟨none, "Arguments".toList, brackets⟩
            values := declarations glyphs true
              (parameters (opened + 1) 0 none (t.take (closed - (opened + 1))))
            location := brackets }
          location := .parsed (.onLine number 0 line.length) } := by
  rw [List.append_assoc, List.append_assoc] at htext
  have hdefined : Text.find? "def ".toList (glyphs.map Glyph.char) = some front.length := by
    rw [htext]
    exact Text.find?_append hd _
  have hbehind : (glyphs.map Glyph.char).drop (front.length + 4) = name ++ '(' :: t := by
    rw [htext, ← List.drop_drop, List.drop_left]
    rfl
  have hwidth : Text.find? ['('] (name ++ '(' :: t) = some name.length :=
    Text.find?_append hname t
  have hopened : (glyphs.map Glyph.char).drop (front.length + 4 + name.length) = '(' :: t := by
    rw [← List.drop_drop, hbehind, List.drop_left]
  have hinside : (glyphs.map Glyph.char).drop (front.length + 4 + name.length + 1) = t := by
    rw [← List.drop_drop, hopened, List.drop_one, List.tail_cons]
  have hclosing : closing? 0 (front.length + 4 + name.length) ('(' :: t) = some closed := hclosed
  have hindent : Text.indentation name = 0 := by
    refine Text.indentation_eq_zero fun c hc => ?_
    rw [← htrim] at hc
    exact Text.isBlank_head_trim hc
  simp only [keyword?, hdefined, hbehind, Option.bind_eq_bind, Option.bind_some, hwidth,
    List.take_left, htrim, hindent, Nat.add_zero, List.isEmpty_eq_false_iff.2 hne, Bool.false_or,
    hopened, hclosing, hinside]
  split
  · rfl
  · rfl

end SuiteIndex.Script
