import SuiteIndex.Proofs.Suite.Call
import SuiteIndex.Proofs.Text.Split

/-! # Nothing of a call is lost

A call is flattened into texts: the full name of its keyword, and then its arguments in order,
the calls among them flattened in turn. A call that is read from cells has just the contents of
these cells, whatever other keywords it runs, and every call in it reaches from the first to
the last cell that it was read from.
-/

namespace SuiteIndex

namespace Identifier

variable {cell : Cell} {qualifier name : Text}

theorem ofCell_of_no_dot (hdot : '.' ∉ cell.content) : ofCell cell = plain cell := by
  simp [ofCell, Text.splitLast_eq_none hdot]

theorem ofCell_of_last_dot (hcell : cell.content = qualifier ++ '.' :: name)
    (hdot : '.' ∉ name) :
    ofCell cell = if qualifier = [] ∨ name = [] then plain cell
      else ⟨some qualifier, name, cell.location⟩ := by
  simp [ofCell, hcell, Text.splitLast_append hdot]

theorem fullName_ofCell (cell : Cell) : (ofCell cell).fullName = cell.content := by
  by_cases hdot : '.' ∈ cell.content
  · obtain ⟨qualifier, name, hcell, hname⟩ := Text.exists_last_mark hdot
    rw [ofCell_of_last_dot hcell hname]
    split
    · rfl
    · exact hcell.symm
  · rw [ofCell_of_no_dot hdot]
    rfl

end Identifier

theorem VariableKind.sigil_of_ofSigil? {c : Char} {kind : VariableKind}
    (h : ofSigil? c = some kind) : kind.sigil = c := by
  unfold ofSigil? at h
  split at h <;> cases h <;> rfl

namespace Token

/-- A reference is a sigil and a name in braces. -/
def Braced (token : Token) : Prop :=
  token.isReference = true → ∃ sigil name, token.text = sigil :: '\x7b' :: name ++ ['\x7d']

theorem braced_of_mem_scanFrom {offset : Nat} {t : Text} {token : Token}
    (h : token ∈ scanFrom offset t) : token.Braced := by
  intro hreference
  obtain ⟨sigil, -, name, -, -, htext⟩ := exists_bracedName_of_mem h hreference
  exact ⟨sigil, name, htext⟩

theorem Spells.singleton {offset : Nat} {t : Text} {token : Token}
    (h : Spells offset t [token]) : token.text = t := by
  cases h with
  | cons _ hrest =>
    cases hrest
    exact (List.append_nil _).symm

theorem Braced.text_eq {token : Token} (h : token.Braced) {sigil : Char} {name : Text}
    (hparts : token.parts? = some (sigil, name)) :
    token.text = sigil :: '\x7b' :: name ++ ['\x7d'] := by
  unfold parts? at hparts
  split at hparts
  · rename_i hkind htext
    obtain ⟨mark, word, hbraced⟩ := h (by simp [isReference, hkind])
    rw [htext, List.cons_append, List.cons_append] at hbraced
    obtain ⟨rfl, rfl⟩ := List.cons.inj hbraced
    rw [List.drop_succ_cons, List.drop_zero, List.dropLast_concat] at hparts
    cases hparts
    exact htext
  · cases hparts

theorem Braced.displayName {cell : Cell} {token : Token} (h : token.Braced) {use : VariableUse}
    (huse : VariableUse.ofToken? cell token = some use) : use.displayName = token.text := by
  simp only [VariableUse.ofToken?, Option.bind_eq_bind, Option.bind_eq_some_iff] at huse
  obtain ⟨⟨sigil, name⟩, hparts, kind, hkind, huse⟩ := huse
  obtain rfl := Option.some.inj huse
  rw [h.text_eq hparts, VariableUse.displayName, VariableKind.reference,
    VariableKind.sigil_of_ofSigil? hkind]

end Token

namespace TemplateText

/-- Pieces of text and variables in turn. -/
def interleave : List Literal → List VariableUse → Text
  | [], uses => uses.flatMap VariableUse.displayName
  | piece :: pieces, [] => piece.value ++ interleave pieces []
  | piece :: pieces, use :: uses => piece.value ++ use.displayName ++ interleave pieces uses

def text (template : TemplateText) : Text :=
  interleave template.pieces template.uses

theorem interleave_assemble {cell : Cell} {offset : Nat} {t : Text} {tokens : List Token}
    (htokens : Token.Spells offset t tokens) (hbraced : ∀ token ∈ tokens, token.Braced)
    (start : Nat) (text : Text) :
    interleave (assemble cell start text tokens).1 (assemble cell start text tokens).2 =
      text ++ t := by
  induction htokens generalizing start text with
  | nil offset => simp [assemble, interleave, piece]
  | @cons offset kind word rest tokens hne hrest ih =>
    rw [List.forall_mem_cons] at hbraced
    simp only [assemble]
    split
    · rename_i use huse
      simp [interleave, piece, ih hbraced.2, hbraced.1.displayName huse]
    · simp [ih hbraced.2]

theorem text_ofTokens (cell : Cell) :
    (ofTokens cell (Token.scan cell.content)).text = cell.content :=
  interleave_assemble (Token.spells_scan cell.content)
    (fun _ => Token.braced_of_mem_scanFrom) 0 []

end TemplateText

namespace Expression

mutual

/-- The texts that an expression consists of; only a call has more than one. -/
def texts : Expression → List Text
  | literal plain => [plain.value]
  | reference use => [use.displayName]
  | template mixed => [mixed.text]
  | call callee args _ => callee.fullName :: allTexts args

def allTexts : List Expression → List Text
  | [] => []
  | first :: rest => first.texts ++ allTexts rest

end

@[simp] theorem call?_ofCell (cell : Cell) : (ofCell cell).call? = none := by
  unfold ofCell
  dsimp only
  split
  · split
    · split <;> rfl
    · rfl
  · rfl

theorem texts_ofCell (cell : Cell) : (ofCell cell).texts = [cell.content] := by
  have htemplate := TemplateText.text_ofTokens cell
  have hspells := Token.spells_scan cell.content
  unfold ofCell
  dsimp only
  split
  · split
    · rename_i token hscan
      split
      · rename_i use huse
        have hbraced : token.Braced := Token.braced_of_mem_scanFrom (hscan ▸ List.mem_cons_self)
        rw [hscan] at hspells
        rw [texts, hbraced.displayName huse, hspells.singleton]
      · rw [texts, htemplate]
    · rw [texts, htemplate]
  · rfl

end Expression

mutual

/-- The expression is made of just these cells: a value of one cell, and a call of a keyword
in the first cell and of arguments in the others. -/
inductive Expression.WrittenIn : List Cell → Expression → Prop
  | value {cell : Cell} {e : Expression} (hvalue : e.call? = none)
    (htexts : e.texts = [cell.content]) : WrittenIn [cell] e
  | call {first : Cell} {rest : List Cell} {callee : Identifier} {args : List Expression}
    {location : Location} (hcallee : callee.fullName = first.content)
    (hargs : AllWrittenIn rest args)
    (hlocation : location = .parsed ⟨first.span.start,
      ((first :: rest).getLast (List.cons_ne_nil first rest)).span.stop⟩) :
    WrittenIn (first :: rest) (.call callee args location)

/-- The expressions are made of cells that follow one another. -/
inductive Expression.AllWrittenIn : List Cell → List Expression → Prop
  | nil : AllWrittenIn [] []
  | cons {own others : List Cell} {e : Expression} {rest : List Expression} (h : WrittenIn own e)
    (hrest : AllWrittenIn others rest) : AllWrittenIn (own ++ others) (e :: rest)

end

namespace Expression

mutual

theorem WrittenIn.texts_eq {cells : List Cell} {e : Expression} :
    e.WrittenIn cells → e.texts = cells.map Cell.content
  | .value _ htexts => htexts
  | .call hcallee hargs _ => by rw [texts, hcallee, hargs.allTexts_eq, List.map_cons]

theorem AllWrittenIn.allTexts_eq {cells : List Cell} {es : List Expression} :
    AllWrittenIn cells es → allTexts es = cells.map Cell.content
  | .nil => rfl
  | .cons h hrest => by rw [allTexts, h.texts_eq, hrest.allTexts_eq, List.map_append]

end

theorem AllWrittenIn.single {cells : List Cell} {e : Expression} (h : e.WrittenIn cells) :
    AllWrittenIn cells [e] := by
  have hsingle := AllWrittenIn.cons h .nil
  rwa [List.append_nil] at hsingle

theorem AllWrittenIn.of_single {cells : List Cell} {e : Expression}
    (h : AllWrittenIn cells [e]) : e.WrittenIn cells := by
  cases h with
  | cons he hrest =>
    cases hrest
    rwa [List.append_nil]

theorem AllWrittenIn.append {left right : List Cell} {es others : List Expression}
    (h : AllWrittenIn left es) (hothers : AllWrittenIn right others) :
    AllWrittenIn (left ++ right) (es ++ others) := by
  induction es generalizing left with
  | nil =>
    cases h
    exact hothers
  | cons e es ih =>
    cases h with
    | cons he hes =>
      rw [List.append_assoc]
      exact .cons he (ih hes)

end Expression

namespace Call

open Expression

/-- The texts of a call: its keyword, and those of its arguments. -/
def texts (call : Call) : List Text :=
  call.toExpression.texts

theorem inTurn_allWrittenIn : InTurn AllWrittenIn where
  nil := .nil
  append := .append
  value cell := .single (.value (call?_ofCell cell) (texts_ofCell cell))
  separator _ := .single (.value rfl rfl)

/-- Every cell is taken into one part of a call, and every call takes the cells it reaches
over. -/
theorem allWrittenIn_embed (cells : List Cell) : AllWrittenIn cells (embed (ofCells? cells)) := by
  refine inTurn_allWrittenIn.embed_ofCells? (fun first rest args _ hargs => .single ?_) cells
  refine .call (Identifier.fullName_ofCell first) hargs ?_
  simp [Cell.reach, List.getLast_eq_getLastD]

/-- A call is read from any cells with a keyword; it has their contents, and every call in it
reaches over just its own cells. -/
theorem exists_writtenIn (first : Cell) (rest : List Cell) :
    ∃ call, ofCells? (first :: rest) = some call ∧
      call.texts = (first :: rest).map Cell.content ∧
      call.toExpression.WrittenIn (first :: rest) := by
  have hall := allWrittenIn_embed (first :: rest)
  rw [ofCells?_cons] at hall ⊢
  have hwritten := hall.of_single
  exact ⟨_, rfl, hwritten.texts_eq, hwritten⟩

end Call

end SuiteIndex
