import Mathlib.Data.List.Chain
import SuiteIndex.Proofs.Position
import SuiteIndex.Proofs.Text.Split
import SuiteIndex.Script.Signature

/-! # Where the characters of a signature stand

The characters of a signature come in reading order. A line is left only behind a space,
which is the one that its end counts as, and on a line every character is at least one
column further than the one before. So a span of characters encloses those of the
characters between its ends, and a part of a signature that is laid out on one line from
its first character on reaches no further than the part itself.
-/

namespace SuiteIndex.Script

namespace Glyph

def stop (glyph : Glyph) : Position :=
  ⟨glyph.position.line, glyph.position.column + 1⟩

/-- What holds of a character and the next one: the next one stands further right, or on
a later line if the character is a space. -/
def Precedes (a b : Glyph) : Prop :=
  a.position.line = b.position.line ∧ a.position.column < b.position.column ∨
    a.char = ' ' ∧ a.position.line < b.position.line

theorem Precedes.stop_le {a b : Glyph} (h : a.Precedes b) : a.stop ≤ b.position := by
  rcases h with ⟨hline, hcolumn⟩ | ⟨-, hline⟩
  · exact Position.le_iff.2 (.inr ⟨hline, hcolumn⟩)
  · exact Position.le_iff.2 (.inl hline)

theorem position_lt_stop (glyph : Glyph) : glyph.position < glyph.stop :=
  Position.lt_of_column_lt rfl (Nat.lt_succ_self _)

theorem stop_mono {a b : Glyph} (h : a.position ≤ b.position) : a.stop ≤ b.stop := by
  rw [Position.le_iff] at h ⊢
  exact h.imp id fun h => ⟨h.1, Nat.succ_le_succ h.2⟩

end Glyph

open Glyph (Precedes)

variable {glyphs : List Glyph} {i j first last : Nat}

theorem stop_le_succ (h : glyphs.IsChain Precedes) (hi : i + 1 < glyphs.length) :
    glyphs[i].stop ≤ glyphs[i + 1].position :=
  (List.isChain_iff_getElem.1 h i hi).stop_le

theorem stop_le_position (h : glyphs.IsChain Precedes) (hij : i < j) (hj : j < glyphs.length) :
    glyphs[i].stop ≤ glyphs[j].position := by
  induction j, hij using Nat.le_induction with
  | base => exact stop_le_succ h hj
  | succ j hij ih =>
    have hstep := stop_le_succ h hj
    exact (ih (by omega)).trans ((Glyph.position_lt_stop _).le.trans hstep)

theorem position_le_position (h : glyphs.IsChain Precedes) (hij : i ≤ j) (hj : j < glyphs.length) :
    glyphs[i].position ≤ glyphs[j].position := by
  rcases Nat.eq_or_lt_of_le hij with rfl | hij
  · exact le_rfl
  · exact (Glyph.position_lt_stop _).le.trans (stop_le_position h hij hj)

/-- Some characters further on, a character stands at least that many columns further on. -/
theorem column_add_le (h : glyphs.IsChain Precedes) (k : Nat) (hk : i + k < glyphs.length) :
    (⟨glyphs[i].position.line, glyphs[i].position.column + k⟩ : Position) ≤
      glyphs[i + k].position := by
  induction k with
  | zero => exact le_rfl
  | succ k ih =>
    have hbefore := ih (by omega)
    have hstep := stop_le_succ h (i := i + k) hk
    simp only [Glyph.stop, Position.le_iff, ← Nat.add_assoc] at hbefore hstep ⊢
    omega

theorem line_eq (h : glyphs.IsChain Precedes) {n : Nat} (hn : i + n < glyphs.length)
    (hchar : ∀ k (hk : k < n), glyphs[i + k].char ≠ ' ') :
    glyphs[i + n].position.line = glyphs[i].position.line := by
  induction n with
  | zero => rfl
  | succ n ih =>
    have hbefore := ih (by omega) fun k hk => hchar k (by omega)
    rcases List.isChain_iff_getElem.1 h (i + n) hn with ⟨hline, -⟩ | ⟨hspace, -⟩
    · exact hline.symm.trans hbefore
    · exact absurd hspace (hchar n (Nat.lt_succ_self n))

theorem spanOf_eq (hfirst : first < glyphs.length) (hpos : 0 < last) (hlast : last ≤ glyphs.length) :
    spanOf glyphs first last = ⟨glyphs[first].position, glyphs[last - 1].stop⟩ := by
  have hbefore : last - 1 < glyphs.length := by omega
  simp [spanOf, hfirst, hbefore, Nat.pos_iff_ne_zero.1 hpos, Glyph.stop]

/-- The part of a signature that spans its characters from `first` to the one before `last`
lies inside any wider part. -/
theorem spanOf_le (h : glyphs.IsChain Precedes) (hi : i ≤ first) (hfirst : first < glyphs.length)
    (hpos : 0 < last) (hlast : last ≤ j) (hj : j ≤ glyphs.length) :
    spanOf glyphs first last ≤ spanOf glyphs i j := by
  rw [spanOf_eq hfirst hpos (by omega), spanOf_eq (by omega) (by omega) hj]
  exact ⟨position_le_position h hi hfirst,
    Glyph.stop_mono (position_le_position h (by omega) (by omega))⟩

theorem spanOf_ordered (h : glyphs.IsChain Precedes) (hfirst : first < last)
    (hlast : last ≤ glyphs.length) :
    (spanOf glyphs first last).start ≤ (spanOf glyphs first last).stop := by
  rw [spanOf_eq (by omega) (by omega) hlast]
  have hle := position_le_position h (i := first) (j := last - 1) (by omega) (by omega)
  exact hle.trans (Glyph.position_lt_stop _).le

/-- A part of a signature that is written on one line from its first character on ends
inside the part. -/
theorem onLine_le_spanOf (h : glyphs.IsChain Precedes) {width : Nat} (hwidth : 0 < width)
    (hlength : i + width ≤ glyphs.length) :
    let start := (spanOf glyphs i (i + width)).start
    Span.onLine start.line start.column (start.column + width) ≤ spanOf glyphs i (i + width) := by
  obtain ⟨k, rfl⟩ := Nat.exists_eq_succ_of_ne_zero hwidth.ne'
  rw [spanOf_eq (by omega) (by omega) hlength]
  refine ⟨le_rfl, ?_⟩
  have hle := column_add_le h k (i := i) (by omega)
  simp only [Span.onLine, Glyph.stop, Position.le_iff, Nat.succ_eq_add_one, ← Nat.add_assoc,
    Nat.add_sub_cancel] at hle ⊢
  omega

theorem spanOf_stop_lt (h : glyphs.IsChain Precedes) (hij : first < last) (hlast : last < i)
    (hi : i < glyphs.length) (hj : 0 < j) (hlen : j ≤ glyphs.length) :
    (spanOf glyphs first last).stop < (spanOf glyphs i j).start := by
  rw [spanOf_eq (by omega) (by omega) (by omega), spanOf_eq hi hj hlen]
  have hmark := stop_le_position h (i := last - 1) (j := last) (by omega) (by omega)
  have hnext := stop_le_position h hlast hi
  exact hmark.trans_lt ((Glyph.position_lt_stop _).trans_le hnext)

/-- The characters are taken from the lines from `number` to the one before `next`, of
which the first has `width` characters. -/
structure TakenFrom (number next width : Nat) (glyphs : List Glyph) : Prop where
  ordered : glyphs.IsChain Precedes
  lines : ∀ glyph ∈ glyphs, number ≤ glyph.position.line ∧ glyph.position.line < next
  columns : ∀ glyph ∈ glyphs, glyph.position.line = number →
    glyph.position.column ≤ width ∧ (glyph.char ≠ ' ' → glyph.position.column < width)

theorem glyphsOf_spec (line column : Nat) (progress : Progress) (t : Text) :
    (glyphsOf line column progress t).1.IsChain Precedes ∧
      ∀ glyph ∈ (glyphsOf line column progress t).1, glyph.position.line = line ∧
        column ≤ glyph.position.column ∧ glyph.position.column < column + t.length := by
  fun_induction glyphsOf line column progress t with
  | case1 => simp
  | case2 => simp
  | case3 column progress c t _ glyphs last hrest ih =>
    rw [hrest] at ih
    obtain ⟨hordered, hplaces⟩ := ih
    refine ⟨List.isChain_cons.2 ⟨fun next hnext => ?_, hordered⟩, ?_⟩
    · obtain ⟨hline, hcolumn, -⟩ := hplaces next (List.mem_of_mem_head? hnext)
      exact .inl ⟨hline.symm, hcolumn⟩
    · rw [List.forall_mem_cons, List.length_cons]
      refine ⟨⟨rfl, le_rfl, by simp⟩, fun glyph hglyph => ?_⟩
      obtain ⟨hline, hlow, hhigh⟩ := hplaces glyph hglyph
      exact ⟨hline, by omega, by omega⟩

theorem takenFrom_glyphsOf (number : Nat) (progress : Progress) (line : Text) :
    TakenFrom number (number + 1) line.length (glyphsOf number 0 progress line).1 := by
  obtain ⟨hordered, hplaces⟩ := glyphsOf_spec number 0 progress line
  refine ⟨hordered, fun glyph hglyph => ?_, fun glyph hglyph _ => ?_⟩
  · obtain ⟨hline, -⟩ := hplaces glyph hglyph
    omega
  · obtain ⟨-, -, hcolumn⟩ := hplaces glyph hglyph
    rw [Nat.zero_add] at hcolumn
    exact ⟨hcolumn.le, fun _ => hcolumn⟩

/-- The end of a line is a character that stands behind those of the line, and the
characters of the lines below it follow. -/
theorem TakenFrom.append {number next width below : Nat} {front back : List Glyph}
    (hfront : TakenFrom number (number + 1) width front)
    (hinside : ∀ glyph ∈ front, glyph.position.column < width)
    (hback : TakenFrom (number + 1) next below back) (hnext : number < next) :
    TakenFrom number next width (front ++ ⟨' ', ⟨number, width⟩⟩ :: back) := by
  have hline {glyph : Glyph} (h : glyph ∈ front) : glyph.position.line = number := by
    have := hfront.lines glyph h
    omega
  refine ⟨List.isChain_append.2 ⟨hfront.ordered, List.isChain_cons.2 ⟨?_, hback.ordered⟩, ?_⟩,
    ?_, ?_⟩
  · intro glyph hglyph
    exact .inr ⟨rfl, (hback.lines glyph (List.mem_of_mem_head? hglyph)).1⟩
  · intro glyph hglyph mark hmark
    obtain rfl := Option.some.inj hmark
    have hmem := List.mem_of_mem_getLast? hglyph
    exact .inl ⟨hline hmem, hinside glyph hmem⟩
  · intro glyph hglyph
    rcases List.mem_append.1 hglyph with hglyph | hglyph
    · have := hline hglyph
      omega
    · rcases List.mem_cons.1 hglyph with rfl | hglyph
      · exact ⟨le_rfl, hnext⟩
      · have := hback.lines glyph hglyph
        omega
  · intro glyph hglyph hnumber
    rcases List.mem_append.1 hglyph with hglyph | hglyph
    · exact hfront.columns glyph hglyph hnumber
    · rcases List.mem_cons.1 hglyph with rfl | hglyph
      · exact ⟨le_rfl, fun hne => absurd rfl hne⟩
      · have := hback.lines glyph hglyph
        omega

theorem one_le_signature (number : Nat) (progress : Progress) (line : Text) (rest : List Text) :
    1 ≤ (signature number progress (line :: rest)).2 := by
  unfold signature
  dsimp only
  split
  · exact le_rfl
  · exact Nat.le_add_left _ _

theorem takenFrom_signature (number : Nat) (progress : Progress) (lines : List Text) :
    TakenFrom number (number + (signature number progress lines).2) (lines.headD []).length
      (signature number progress lines).1 := by
  fun_induction signature number progress lines with
  | case1 => constructor <;> simp
  | case2 number progress line rest glyphs after hglyphs _ =>
    have hline := takenFrom_glyphsOf number progress line
    rw [hglyphs] at hline
    exact hline
  | case3 number progress line rest glyphs after hglyphs _ more count hmore ih =>
    have hline := takenFrom_glyphsOf number progress line
    have hinside := (glyphsOf_spec number 0 progress line).2
    rw [hglyphs] at hline hinside
    rw [hmore] at ih
    have hnext : number + (count + 1) = number + 1 + count := by omega
    rw [hnext]
    refine hline.append (fun glyph hglyph => ?_) ih (by omega)
    obtain ⟨-, -, hcolumn⟩ := hinside glyph hglyph
    rwa [Nat.zero_add] at hcolumn

theorem TakenFrom.start_line {number next width : Nat} (h : TakenFrom number next width glyphs)
    (hfirst : first < glyphs.length) (hpos : 0 < last) (hlast : last ≤ glyphs.length) :
    number ≤ (spanOf glyphs first last).start.line ∧
      (spanOf glyphs first last).start.line < next := by
  rw [spanOf_eq hfirst hpos hlast]
  exact h.lines _ (List.getElem_mem hfirst)

/-- A part that does not end in a space lies in the first line or ends on one below it. -/
theorem TakenFrom.encloses_or_lt {number next width : Nat} (h : TakenFrom number next width glyphs)
    (hfirst : first < glyphs.length) (hlast : last < glyphs.length)
    (hchar : glyphs[last].char ≠ ' ') :
    (Span.onLine number 0 width).encloses (spanOf glyphs first (last + 1)) = true ∨
      number < (spanOf glyphs first (last + 1)).stop.line := by
  have hlength : last + 1 ≤ glyphs.length := hlast
  rw [spanOf_eq hfirst (by omega) hlength, Span.encloses_eq_true, Span.le_iff]
  obtain ⟨hstart, -⟩ := h.lines _ (List.getElem_mem hfirst)
  obtain ⟨hstop, -⟩ := h.lines _ (List.getElem_mem hlast)
  simp only [Nat.add_sub_cancel, Span.onLine, Glyph.stop, Position.le_iff]
  rcases Nat.eq_or_lt_of_le hstop with hline | hline
  · have hcolumn := (h.columns _ (List.getElem_mem hlast) hline.symm).2 hchar
    omega
  · exact .inr hline

/-- From the character at `index` on, the signature reads `t`. -/
def Reads (glyphs : List Glyph) (index : Nat) (t : Text) : Prop :=
  ∃ front behind, glyphs.map Glyph.char = front ++ t ++ behind ∧ front.length = index

namespace Reads

variable {index : Nat} {t before part behind : Text}

theorem le_length (h : Reads glyphs index t) : index + t.length ≤ glyphs.length := by
  obtain ⟨front, behind, htext, rfl⟩ := h
  have hlength := congrArg List.length htext
  simp only [List.length_map, List.length_append] at hlength
  omega

theorem sub (h : Reads glyphs index (before ++ part ++ behind)) :
    Reads glyphs (index + before.length) part := by
  obtain ⟨front, rest, htext, rfl⟩ := h
  exact ⟨front ++ before, behind ++ rest, by simp [htext], by simp⟩

theorem left (h : Reads glyphs index (before ++ part)) : Reads glyphs index before := by
  obtain ⟨front, rest, htext, hfront⟩ := h
  exact ⟨front, part ++ rest, by simp [htext], hfront⟩

theorem right (h : Reads glyphs index (before ++ part)) :
    Reads glyphs (index + before.length) part := by
  rw [← List.append_nil (before ++ part)] at h
  exact h.sub

theorem char_eq (h : Reads glyphs index t) {k : Nat} (hk : k < t.length)
    (hindex : index + k < glyphs.length) : glyphs[index + k].char = t[k] := by
  obtain ⟨front, behind, htext, rfl⟩ := h
  have hget : (glyphs.map Glyph.char)[front.length + k]? = some t[k] := by
    rw [htext, List.append_assoc, Text.getElem?_add, List.getElem?_append_left hk,
      List.getElem?_eq_getElem hk]
  rw [List.getElem?_map, List.getElem?_eq_getElem hindex] at hget
  exact Option.some.inj hget

end Reads

end SuiteIndex.Script
