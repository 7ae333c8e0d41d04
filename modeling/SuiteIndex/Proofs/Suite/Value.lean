import SuiteIndex.Proofs.Node.Nesting
import SuiteIndex.Proofs.Table.Placement
import SuiteIndex.Proofs.Token
import SuiteIndex.Suite.Value

/-! # Locations of values

What is read from a cell is located at the cell or at some of its characters, so it nests
inside the cell.
-/

namespace SuiteIndex
open Node

namespace Node

@[simp] theorem children_identifier (id : Identifier) : (identifier id).children = [] := rfl

@[simp] theorem children_literal (plain : Literal) : (literal plain).children = [] := rfl

@[simp] theorem children_templateElement (piece : Literal) :
    (templateElement piece).children = [] := rfl

variable {outer : Span} {node : Node} {cell : Cell}

theorem nests_of_cell (hfits : cell.Fits) (hwithin : cell.span ≤ outer)
    (hlocation : node.location = cell.location)
    (hchildren : ∀ child ∈ node.children, Nests cell.span child) : Nests outer node :=
  .intro hlocation hfits.ordered hwithin hchildren

theorem nests_of_part (hfits : cell.Fits) {first last : Nat} (hfirst : first ≤ last)
    (hlast : last ≤ cell.content.length)
    (hlocation : node.location = .parsed (cell.part first last))
    (hchildren : ∀ child ∈ node.children, Nests (cell.part first last) child) :
    Nests cell.span node :=
  .intro hlocation (cell.part_ordered hfirst) (hfits.part_le hlast first) hchildren

end Node

variable {outer : Span} {cell : Cell}

theorem VariableUse.location_ofToken? {token : Token} {use : VariableUse}
    (h : VariableUse.ofToken? cell token = some use) :
    use.location = .parsed (cell.part token.start token.stop) ∧
      use.id.location = .parsed (cell.part token.start token.stop) := by
  simp only [VariableUse.ofToken?, Option.bind_eq_bind, Option.bind_eq_some_iff] at h
  obtain ⟨_, _, _, _, h⟩ := h
  obtain rfl := Option.some.inj h
  exact ⟨rfl, rfl⟩

theorem VariableUse.nests_ofToken? (hfits : cell.Fits) {token : Token} {use : VariableUse}
    (h : VariableUse.ofToken? cell token = some use) (hstart : token.start ≤ token.stop)
    (hstop : token.stop ≤ cell.content.length) : Nests cell.span (variableExpression use) := by
  obtain ⟨hlocation, hid⟩ := VariableUse.location_ofToken? h
  refine nests_of_part hfits hstart hstop hlocation fun child hchild => ?_
  obtain rfl : child = identifier use.id := by simpa [children_eq, fields] using hchild
  exact .intro hid (cell.part_ordered hstart) le_rfl (by simp)

theorem TemplateText.nests_assemble (hfits : cell.Fits) {offset : Nat} {t : Text}
    {tokens : List Token} (htokens : Token.Spells offset t tokens)
    (hlength : offset + t.length ≤ cell.content.length) (start : Nat) (text : Text)
    (hstart : start + text.length = offset) :
    (∀ piece ∈ (assemble cell start text tokens).1, Nests cell.span (templateElement piece)) ∧
      ∀ use ∈ (assemble cell start text tokens).2, Nests cell.span (variableExpression use) := by
  have hpiece {offset start : Nat} {text : Text} (hstart : start + text.length = offset)
      (hoffset : offset ≤ cell.content.length) :
      Nests cell.span (templateElement (piece cell start text)) :=
    nests_of_part hfits (Nat.le_add_right start text.length) (hstart ▸ hoffset) rfl (by simp)
  induction htokens generalizing start text with
  | nil offset =>
    simp only [assemble, List.mem_singleton, forall_eq]
    exact ⟨hpiece hstart hlength, by simp⟩
  | @cons offset kind word rest tokens hne hrest ih =>
    rw [List.length_append] at hlength
    simp only [assemble]
    split
    · rename_i use huse
      obtain ⟨hpieces, huses⟩ := ih (by omega) (offset + word.length) [] rfl
      simp only [List.forall_mem_cons]
      refine ⟨⟨hpiece hstart (by omega), hpieces⟩, ?_, huses⟩
      exact VariableUse.nests_ofToken? hfits huse (Nat.le_add_right _ _) (by dsimp only; omega)
    · apply ih (by omega) start (text ++ word)
      rw [List.length_append]
      omega

theorem TemplateText.nests_ofTokens (hfits : cell.Fits) (hwithin : cell.span ≤ outer) :
    Nests outer (templateLiteral (.ofTokens cell (Token.scan cell.content))) := by
  obtain ⟨hpieces, huses⟩ :=
    nests_assemble hfits (Token.spells_scan cell.content) (by simp) 0 [] rfl
  apply nests_of_cell hfits hwithin rfl
  intro child hchild
  obtain ⟨piece, hpiece, rfl⟩ | ⟨use, huse, rfl⟩ :
      (∃ piece ∈ (assemble cell 0 [] (Token.scan cell.content)).1, templateElement piece = child) ∨
        ∃ use ∈ (assemble cell 0 [] (Token.scan cell.content)).2,
          variableExpression use = child := by
    simpa [children_eq, fields, ofTokens] using hchild
  · exact hpieces piece hpiece
  · exact huses use huse

theorem Expression.nests_ofCell (hfits : cell.Fits) (hwithin : cell.span ≤ outer) :
    Nests outer (ofExpression (.ofCell cell)) := by
  have htokens := Token.spells_scan cell.content
  have htemplate := TemplateText.nests_ofTokens hfits hwithin
  unfold Expression.ofCell
  dsimp only
  split
  · split
    · rename_i token hscan
      rw [hscan] at htokens
      split
      · rename_i use huse
        have hbounds := htokens.bounds List.mem_cons_self
        have hnests := VariableUse.nests_ofToken? hfits huse hbounds.1 (by omega)
        exact hnests.mono hwithin
      · exact htemplate
    · exact htemplate
  · exact nests_of_cell hfits hwithin rfl (by simp [ofExpression])

theorem Text.eq_append_of_after? {start t rest : Text} (h : after? start t = some rest) :
    t = start ++ rest := by
  unfold after? at h
  split at h
  · rename_i hstart
    obtain ⟨behind, rfl⟩ := List.isPrefixOf_iff_prefix.1 hstart
    rw [List.drop_left] at h
    rw [Option.some.inj h]
  · cases h

theorem Cell.fits_part (cell : Cell) (start : Nat) (text : Text) :
    Fits ⟨text, cell.part start (start + text.length)⟩ := by
  simp [Fits, part, Span.onLine, Nat.add_assoc]

/-- What a target declares stands inside its cell. -/
structure Target.Nested (cell : Cell) (target : Target) : Prop where
  location : target.location = cell.location
  id : Nests cell.span (identifier target.id)
  default : ∀ value ∈ target.default?, Nests cell.span (ofExpression value)

theorem Target.nested_ofCell? (hfits : cell.Fits) {allowDefault : Bool} {target : Target}
    (h : ofCell? allowDefault cell = some target) : Nested cell target := by
  simp only [ofCell?, Option.bind_eq_bind, Option.bind_eq_some_iff] at h
  obtain ⟨head, hhead, ⟨sigil, name⟩, -, kind, -, h⟩ := h
  obtain ⟨hstart, hstop, hcontent⟩ := (Token.spells_scan cell.content).head hhead
  have hlength := congrArg List.length hcontent
  rw [List.length_append] at hlength
  have hid : Nests cell.span (identifier ⟨none, name, .parsed (cell.part head.start head.stop)⟩) :=
    nests_of_part hfits (by omega) (by omega) rfl (by simp)
  split at h
  · obtain rfl := Option.some.inj h
    exact ⟨rfl, hid, by simp⟩
  · split at h
    · obtain ⟨text, htext, h⟩ := Option.bind_eq_some_iff.1 h
      obtain rfl := Option.some.inj h
      refine ⟨rfl, hid, fun value hvalue => ?_⟩
      obtain rfl := Option.some.inj hvalue
      have hrest := congrArg List.length (Text.eq_append_of_after? htext)
      rw [List.length_append, List.length_singleton] at hrest
      apply Expression.nests_ofCell (cell.fits_part (head.stop + 1) text)
      exact hfits.part_le (by omega) (head.stop + 1)
    · cases h

theorem Target.nests_toDeclaration (hfits : cell.Fits) (hwithin : cell.span ≤ outer)
    {target : Target} (h : target.Nested cell) :
    Nests outer (variableDeclaration target.toDeclaration) := by
  refine nests_of_cell hfits hwithin h.location fun child hchild => ?_
  obtain rfl | ⟨value, hvalue, rfl⟩ : child = identifier target.id ∨
      ∃ value, target.default? = some value ∧ ofExpression value = child := by
    simpa [children_eq, fields, toDeclaration] using hchild
  · exact h.id
  · exact h.default value hvalue

/-- The node nests inside every span around the cells. -/
def Node.ReadFrom (cells : List Cell) (node : Node) : Prop :=
  ∀ outer, Cell.Inside outer cells → Nests outer node

namespace Cell.Inside

variable {cells : List Cell} {first : Cell} {rest : List Cell}

theorem plain (h : Inside outer cells) (hcell : cell ∈ cells) :
    Nests outer (identifier (.plain cell)) :=
  nests_of_cell (h.fits cell hcell) (h.within cell hcell) rfl (by simp)

theorem name (h : Inside outer cells) (hcell : cell ∈ cells) :
    Nests outer (identifier (.ofCell cell)) := by
  have hlocation : (Identifier.ofCell cell).location = cell.location := by
    unfold Identifier.ofCell
    split
    · split <;> rfl
    · rfl
  exact nests_of_cell (h.fits cell hcell) (h.within cell hcell) hlocation (by simp)

theorem literal (h : Inside outer cells) (hcell : cell ∈ cells) :
    Nests outer (.literal (.ofCell cell)) :=
  nests_of_cell (h.fits cell hcell) (h.within cell hcell) rfl (by simp)

theorem value (h : Inside outer cells) (hcell : cell ∈ cells) :
    Nests outer (ofExpression (.ofCell cell)) :=
  Expression.nests_ofCell (h.fits cell hcell) (h.within cell hcell)

theorem node {node : Node} (h : Inside outer (first :: rest))
    (hlocation : node.location = reach first rest)
    (hchildren : ∀ span, Inside span (first :: rest) → ∀ child ∈ node.children, Nests span child) :
    Nests outer node := by
  obtain ⟨hordered, hwithin, hinside⟩ := h.range (range?_cons first rest)
  exact .intro hlocation hordered hwithin (hchildren _ hinside)

end Cell.Inside

end SuiteIndex
