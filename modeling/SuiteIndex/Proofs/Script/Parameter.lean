import SuiteIndex.Proofs.Node.Separation
import SuiteIndex.Proofs.Script.Glyphs
import SuiteIndex.Proofs.Suite.Value
import SuiteIndex.Proofs.Text.Split
import SuiteIndex.Proofs.Text.Trim

/-! # Where parameters stand

The text between the brackets of a signature is cut at commas, and a parameter is located
at its piece without the white space around it. Its name and its default stand inside, so
the location of a parameter encloses everything that is read from it, and no two
parameters share a position.
-/

namespace SuiteIndex.Script
open Node
open Glyph (Precedes)

/-- The location of the node is a span that encloses those of its children, except that
the name and the parameters of a keyword may reach to a later line. -/
def Located (node : Node) : Prop :=
  ∃ span, node.location = .parsed span ∧ ∀ child ∈ node.children,
    ∃ inner, child.location = .parsed inner ∧
      (span.encloses inner = true ∨ node.kind = .userKeyword ∧ span.stop.line < inner.stop.line)

theorem located_of_nests {outer : Span} {node : Node} (h : Nests outer node) :
    Throughout Located node := by
  intro below hbelow
  obtain ⟨_, hlocation, -, -, hchildren⟩ := h.of_reaches hbelow
  refine ⟨_, hlocation, fun child hchild => ?_⟩
  obtain ⟨hinner, -, hwithin, -⟩ := hchildren child hchild
  exact ⟨_, hinner, .inl (Span.encloses_eq_true.2 hwithin)⟩

theorem located_of_children {node : Node} {span : Span} (hlocation : node.location = .parsed span)
    (h : ∀ child ∈ node.children, Throughout Located child ∧
      ∃ inner, child.location = .parsed inner ∧ inner ≤ span) : Throughout Located node := by
  refine throughout_iff.2 ⟨⟨span, hlocation, fun child hchild => ?_⟩, fun child hchild =>
    (h child hchild).1⟩
  obtain ⟨-, inner, hinner, hwithin⟩ := h child hchild
  exact ⟨inner, hinner, .inl (Span.encloses_eq_true.2 hwithin)⟩

/-- The cell as if it were written on the line on which it starts. -/
def laidOut (cell : Cell) : Cell :=
  ⟨cell.content, cell.part 0 cell.content.length⟩

@[simp] theorem content_laidOut (cell : Cell) : (laidOut cell).content = cell.content := rfl

theorem fits_laidOut (cell : Cell) : (laidOut cell).Fits := rfl

@[simp] theorem ofToken?_laidOut (cell : Cell) (token : Token) :
    VariableUse.ofToken? (laidOut cell) token = VariableUse.ofToken? cell token := rfl

@[simp] theorem assemble_laidOut (cell : Cell) (start : Nat) (text : Text) (tokens : List Token) :
    TemplateText.assemble (laidOut cell) start text tokens =
      TemplateText.assemble cell start text tokens := by
  induction tokens generalizing start text with
  | nil => rfl
  | cons token tokens ih =>
    simp only [TemplateText.assemble, ofToken?_laidOut, ih]
    rfl

theorem ofCell_laidOut (cell : Cell) :
    Expression.ofCell cell = .ofCell (laidOut cell) ∨
      (ofExpression (.ofCell cell)).location = .parsed cell.span ∧
        (ofExpression (.ofCell cell)).children = (ofExpression (.ofCell (laidOut cell))).children := by
  have hchildren (tokens : List Token) :
      (templateLiteral (.ofTokens cell tokens)).children =
        (templateLiteral (.ofTokens (laidOut cell) tokens)).children := by
    simp [children_eq, fields, TemplateText.ofTokens]
  unfold Expression.ofCell
  simp only [ofToken?_laidOut, content_laidOut]
  by_cases hreference : (Token.scan cell.content).any Token.isReference = true
  · simp only [hreference, if_true]
    split
    · split
      · exact .inl rfl
      · exact .inr ⟨rfl, hchildren _⟩
    · exact .inr ⟨rfl, hchildren _⟩
  · simp only [hreference]
    exact .inr ⟨rfl, rfl⟩

/-- A value that stays in its span when it is written on one line is located inside the span. -/
theorem located_ofCell (cell : Cell) (h : cell.content ≠ [] → (laidOut cell).span ≤ cell.span) :
    Throughout Located (ofExpression (.ofCell cell)) ∧
      ∃ inner, (ofExpression (.ofCell cell)).location = .parsed inner ∧ inner ≤ cell.span := by
  by_cases hnil : cell.content = []
  · -- An empty default in front of a comment has a span that ends before it starts.
    have hliteral : Expression.ofCell cell = .literal (.ofCell cell) := by
      simp [Expression.ofCell, hnil, Token.scan, Token.scanFrom]
    rw [hliteral]
    exact ⟨located_of_children rfl (by simp [ofExpression]), cell.span, rfl, le_rfl⟩
  · have hnests := Expression.nests_ofCell (fits_laidOut cell) (h hnil)
    rcases ofCell_laidOut cell with heq | ⟨hlocation, hchildren⟩
    · rw [heq]
      refine ⟨located_of_nests hnests, ?_⟩
      obtain ⟨hlocation, -, hwithin, -⟩ := hnests
      exact ⟨_, hlocation, hwithin⟩
    · refine ⟨located_of_children hlocation fun child hchild => ?_, cell.span, hlocation, le_rfl⟩
      rw [hchildren] at hchild
      obtain ⟨-, -, hwithin, hbelow⟩ := hnests
      obtain @⟨_, inner, _, hinner, hordered, hinside, hrest⟩ := hbelow child hchild
      exact ⟨located_of_nests (.intro hinner hordered hinside hrest), inner, hinner,
        hinside.trans hwithin⟩

/-- The pieces between commas, each with the index of its first character. -/
inductive Cut : Nat → Text → List (Nat × Text) → Prop where
  | last (index : Nat) (t : Text) : Cut index t [(index, t)]
  | comma {index : Nat} {raw t : Text} {parts : List (Nat × Text)}
    (h : Cut (index + raw.length + 1) t parts) : Cut index (raw ++ ',' :: t) ((index, raw) :: parts)

namespace Cut

variable {index : Nat} {t : Text} {parts : List (Nat × Text)} {glyphs : List Glyph}

theorem cons (h : Cut (index + 1) t parts) (c : Char) :
    Cut index (c :: t) (consParameter index c parts) := by
  cases h with
  | last => exact .last index (c :: t)
  | @comma _ raw t parts h =>
    have hindex : index + 1 + raw.length + 1 = index + (c :: raw).length + 1 := by
      rw [List.length_cons]
      omega
    show Cut index ((c :: raw) ++ ',' :: t) ((index, c :: raw) :: parts)
    exact .comma (hindex ▸ h)

theorem index_le (h : Cut index t parts) {part : Nat × Text} (hpart : part ∈ parts) :
    index ≤ part.1 := by
  induction h with
  | last => rw [List.mem_singleton.1 hpart]
  | comma _ ih =>
    rcases List.mem_cons.1 hpart with rfl | hpart
    · exact le_rfl
    · exact le_trans (by omega) (ih hpart)

theorem reads (h : Cut index t parts) (hreads : Reads glyphs index t) {part : Nat × Text}
    (hpart : part ∈ parts) :
    Reads glyphs part.1 part.2 ∧ part.1 + part.2.length ≤ index + t.length := by
  induction h with
  | last index t =>
    obtain rfl := List.mem_singleton.1 hpart
    exact ⟨hreads, le_rfl⟩
  | @comma index raw t parts _ ih =>
    have hraw : Reads glyphs index ([] ++ raw ++ ',' :: t) := hreads
    have hrest : Reads glyphs index ((raw ++ [',']) ++ t ++ []) := by simpa using hreads
    rcases List.mem_cons.1 hpart with rfl | hpart
    · exact ⟨hraw.sub, by simp⟩
    · have hrest := hrest.sub
      rw [List.length_append, List.length_singleton, ← Nat.add_assoc] at hrest
      obtain ⟨hread, hlength⟩ := ih hrest hpart
      rw [List.length_append, List.length_cons]
      exact ⟨hread, by omega⟩

theorem apart (h : Cut index t parts) : parts.Pairwise fun a b => a.1 + a.2.length < b.1 := by
  induction h with
  | last => exact List.pairwise_singleton _ _
  | comma hrest ih => exact ih.cons fun part hpart => hrest.index_le hpart

end Cut

theorem cut_parameters (index depth : Nat) (quote : Option Char) (t : Text) :
    Cut index t (parameters index depth quote t) := by
  fun_induction parameters index depth quote t with
  | case1 index => exact .last index []
  | case2 index depth c t hcomma ih =>
    obtain rfl : c = ',' := by simp_all
    show Cut index ([] ++ ',' :: t) ((index, []) :: parameters (index + 1) 0 none t)
    exact .comma ih
  | case3 index depth c t _ _ ih => exact ih.cons c
  | case4 index depth c t _ _ ih => exact ih.cons c
  | case5 index depth c t q ih => exact ih.cons c

/-- The declaration of a parameter that the signature writes as `text`, trimmed, from the
character at `first` on. -/
structure Declares (glyphs : List Glyph) (first : Nat) (text : Text) (parameter : Declaration) :
    Prop where
  location : parameter.location = .parsed (spanOf glyphs first (first + text.length))
  name : ∃ stars width, 0 < width ∧ stars + width ≤ text.length ∧
    (∀ k < stars, text[k]? = some '*') ∧
    parameter.id.location = .parsed (spanOf glyphs (first + stars) (first + stars + width))
  values : ∀ value ∈ parameter.values, ∃ offset content, 0 < offset ∧
    offset + content.length ≤ text.length ∧
    value = .ofCell ⟨content, spanOf glyphs (first + offset) (first + offset + content.length)⟩

theorem starsOf_spec (t : Text) : ∀ k < (starsOf t).2, t[k]? = some '*' := by
  intro k hk
  unfold starsOf at hk
  split at hk
  · obtain rfl | rfl : k = 0 ∨ k = 1 := by omega
    · rfl
    · rfl
  · obtain rfl : k = 0 := by omega
    rfl
  · cases hk

/-- The name of a parameter is shorter than the text in which it stands by the stars in
front of it at least. -/
theorem length_name_le {head text behind name : Text} {stars : Nat} (htext : text = head ++ behind)
    (hname : name = Text.trim ((Text.trim (head.takeWhile (· ≠ ':'))).drop stars))
    (hne : name ≠ []) : 0 < name.length ∧ stars + name.length ≤ text.length := by
  have hpos := List.length_pos_iff.2 hne
  have htrim := Text.length_trim_le ((Text.trim (head.takeWhile (· ≠ ':'))).drop stars)
  have hhead := Text.length_trim_le (head.takeWhile (· ≠ ':'))
  have hwhile := (List.takeWhile_prefix (l := head) (· ≠ ':')).length_le
  rw [← hname, List.length_drop] at htrim
  rw [htext, List.length_append]
  exact ⟨hpos, by omega⟩

theorem declares_default {glyphs : List Glyph} {first : Nat} {text head default : Text}
    (htext : text = head ++ '=' :: default) :
    let start := first + head.length + 1 + Text.indentation default
    ∃ offset content, 0 < offset ∧ offset + content.length ≤ text.length ∧
      Expression.ofCell ⟨Text.trim default,
        spanOf glyphs start (start + (Text.trim default).length)⟩ =
      .ofCell ⟨content, spanOf glyphs (first + offset) (first + offset + content.length)⟩ := by
  have htrim := Text.indentation_add_length_trim_le default
  refine ⟨head.length + 1 + Text.indentation default, Text.trim default, by omega, ?_, ?_⟩
  · rw [htext, List.length_append, List.length_cons]
    omega
  · simp only [Nat.add_assoc]

theorem declares_parameter? {glyphs : List Glyph} {isFirst : Bool} {start : Nat} {raw : Text}
    {parameter : Declaration} (h : parameter? glyphs isFirst start raw = some parameter) :
    Declares glyphs (start + Text.indentation raw) (Text.trim raw) parameter := by
  unfold parameter? at h
  cases hsplit : Text.splitFirst '=' (Text.trim raw) with
  | none =>
    simp only [hsplit] at h
    split at h
    · cases h
    split at h
    · cases h
    · rename_i hname
      obtain rfl := Option.some.inj h
      have hname := length_name_le (List.append_nil _).symm rfl (by simpa using hname)
      exact ⟨rfl, ⟨_, _, hname.1, hname.2, starsOf_spec _, rfl⟩, by simp⟩
  | some parts =>
    obtain ⟨head, default⟩ := parts
    have htext := Text.eq_append_of_splitFirst hsplit
    simp only [hsplit] at h
    split at h
    · cases h
    split at h
    · cases h
    · rename_i hname
      obtain rfl := Option.some.inj h
      have hname := length_name_le htext rfl (by simpa using hname)
      refine ⟨rfl, ⟨_, _, hname.1, hname.2, starsOf_spec _, rfl⟩, ?_⟩
      simpa using declares_default htext

namespace Declares

variable {glyphs : List Glyph} {first : Nat} {text : Text} {parameter : Declaration}

theorem length_pos (h : Declares glyphs first text parameter) : 0 < text.length := by
  obtain ⟨stars, width, hwidth, hle, -⟩ := h.name
  omega

theorem located (h : Declares glyphs first text parameter) (hordered : glyphs.IsChain Precedes)
    (hlast : first + text.length < glyphs.length) :
    Throughout Located (variableDeclaration parameter) := by
  refine located_of_children h.location fun child hchild => ?_
  obtain rfl | ⟨value, hvalue, rfl⟩ : child = identifier parameter.id ∨
      ∃ value ∈ parameter.values, ofExpression value = child := by
    simpa [children_eq, fields] using hchild
  · obtain ⟨stars, width, hwidth, hle, -, hid⟩ := h.name
    refine ⟨located_of_children hid (by simp), _, hid, ?_⟩
    exact spanOf_le hordered (by omega) (by omega) (by omega) (by omega) hlast.le
  · obtain ⟨offset, content, hoffset, hle, rfl⟩ := h.values value hvalue
    obtain ⟨hlocated, inner, hinner, hwithin⟩ := located_ofCell
      ⟨content, spanOf glyphs (first + offset) (first + offset + content.length)⟩
      fun hne => onLine_le_spanOf hordered (List.length_pos_iff.2 hne) (by omega)
    refine ⟨hlocated, inner, hinner, hwithin.trans ?_⟩
    exact spanOf_le hordered (by omega) (by omega) (by omega) (by omega) hlast.le

theorem exists_glyph (h : Declares glyphs first text parameter)
    (hordered : glyphs.IsChain Precedes) (hreads : Reads glyphs first text)
    (hlast : first + text.length < glyphs.length) :
    ∃ glyph ∈ glyphs,
      glyph.position.line = (spanOf glyphs first (first + text.length)).start.line ∧
      parameter.location.contains glyph.position = true ∧
      parameter.id.location.contains glyph.position = true := by
  obtain ⟨stars, width, hwidth, hle, hstars, hid⟩ := h.name
  have hwithin : spanOf glyphs (first + stars) (first + stars + width) ≤
      spanOf glyphs first (first + text.length) :=
    spanOf_le hordered (by omega) (by omega) (by omega) (by omega) hlast.le
  have hname : first + stars < glyphs.length := by omega
  have hnonempty : (spanOf glyphs (first + stars) (first + stars + width)).contains
      glyphs[first + stars].position = true := by
    have hend : first + stars + width ≤ glyphs.length := by omega
    have hspan := spanOf_ordered hordered (Nat.lt_add_of_pos_right hwidth) hend
    rw [spanOf_eq hname (by omega) (by omega)] at hspan ⊢
    exact Span.contains_eq_true.2 ⟨le_rfl, hspan⟩
  refine ⟨glyphs[first + stars], List.getElem_mem hname, ?_, ?_, ?_⟩
  · rw [spanOf_eq (by omega) (by omega) hlast.le]
    refine line_eq hordered hname fun k hk => ?_
    obtain ⟨hlength, hstar⟩ := List.getElem?_eq_some_iff.1 (hstars k hk)
    rw [hreads.char_eq hlength, hstar]
    decide
  · rw [h.location]
    exact Span.contains_of_le hwithin hnonempty
  · rw [hid]
    exact hnonempty

theorem apart {next : Nat} {behind : Text} {other : Declaration}
    (h : Declares glyphs first text parameter) (hother : Declares glyphs next behind other)
    (hordered : glyphs.IsChain Precedes) (hcut : first + text.length < next)
    (hlast : next + behind.length < glyphs.length) :
    (variableDeclaration parameter).Apart (variableDeclaration other) := by
  have hpos := h.length_pos
  have hother_pos := hother.length_pos
  intro position hin
  have hlt : (spanOf glyphs first (first + text.length)).stop <
      (spanOf glyphs next (next + behind.length)).start :=
    spanOf_stop_lt hordered (by omega) hcut (by omega) (by omega) hlast.le
  have hin : parameter.location.contains position = true := hin
  show other.location.contains position = false
  rw [h.location] at hin
  rw [hother.location]
  exact Span.not_contains_of_lt hlt hin

end Declares

section

variable {glyphs : List Glyph} {isFirst : Bool} {index : Nat} {t : Text}
  {parts : List (Nat × Text)} {parameter : Declaration}

theorem exists_part_of_mem (h : parameter ∈ declarations glyphs isFirst parts) :
    ∃ part ∈ parts,
      Declares glyphs (part.1 + Text.indentation part.2) (Text.trim part.2) parameter := by
  induction parts generalizing isFirst with
  | nil => cases h
  | cons part parts ih =>
    rw [declarations, List.mem_append, Option.mem_toList] at h
    rcases h with h | h
    · exact ⟨part, List.mem_cons_self, declares_parameter? h⟩
    · obtain ⟨other, hother, hdeclares⟩ := ih h
      exact ⟨other, List.mem_cons_of_mem part hother, hdeclares⟩

theorem exists_declares_of_mem (hreads : Reads glyphs index t)
    (h : parameter ∈ declarations glyphs isFirst (parameters index 0 none t)) :
    ∃ first text, Declares glyphs first text parameter ∧ Reads glyphs first text ∧
      index ≤ first ∧ first + text.length ≤ index + t.length := by
  obtain ⟨part, hpart, hdeclares⟩ := exists_part_of_mem h
  have hcut := cut_parameters index 0 none t
  have hindex := hcut.index_le hpart
  have htrim := Text.indentation_add_length_trim_le part.2
  obtain ⟨hpartReads, hlength⟩ := hcut.reads hreads hpart
  refine ⟨_, _, hdeclares, ?_, by omega, by omega⟩
  obtain ⟨behind, hbehind, -⟩ := Text.exists_trim_append part.2
  rw [hbehind] at hpartReads
  exact hpartReads.sub

theorem apart_declarations (hordered : glyphs.IsChain Precedes)
    (hcut : parts.Pairwise fun a b => a.1 + a.2.length < b.1)
    (hlast : ∀ part ∈ parts, part.1 + part.2.length < glyphs.length) :
    ((declarations glyphs isFirst parts).map variableDeclaration).Pairwise Apart := by
  induction parts generalizing isFirst with
  | nil => exact List.Pairwise.nil
  | cons part parts ih =>
    rw [List.pairwise_cons] at hcut
    rw [List.forall_mem_cons] at hlast
    rw [declarations, List.map_append, List.pairwise_append]
    refine ⟨?_, ih hcut.2 hlast.2, ?_⟩
    · cases parameter? glyphs isFirst part.1 part.2 <;> simp
    · simp only [List.forall_mem_map, Option.mem_toList]
      intro a ha b hb
      obtain ⟨other, hother, hdeclares⟩ := exists_part_of_mem hb
      have hpart := Text.indentation_add_length_trim_le part.2
      have htrim := Text.indentation_add_length_trim_le other.2
      have hbefore := hcut.1 other hother
      have hend := hlast.2 other hother
      exact (declares_parameter? ha).apart hdeclares hordered (by omega) (by omega)

end

end SuiteIndex.Script
