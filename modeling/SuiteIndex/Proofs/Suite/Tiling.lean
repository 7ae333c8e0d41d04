import SuiteIndex.Proofs.Suite.Wording

/-! # Values tile their cell

A cell is plain text if no reference to a variable stands anywhere in it, a variable if it is
nothing but one reference, and mixed text otherwise. The parts of its value follow one another
from the first character of the cell to the last, and each is located at just its own
characters.
-/

namespace SuiteIndex

namespace Token

/-- A sigil and a name in braces. The name is not empty and holds no closing brace. -/
inductive Reference : Text → Prop where
  | intro {sigil : Char} {name : Text} (hsigil : isSigil sigil = true) (hne : name ≠ [])
    (hname : '\x7d' ∉ name) : Reference (sigil :: '\x7b' :: name ++ ['\x7d'])

/-- A reference stands somewhere in the text. -/
def Mentions (t : Text) : Prop :=
  ∃ reference, Reference reference ∧ reference <:+: t

theorem Reference.mentions {t : Text} (h : Reference t) : Mentions t :=
  ⟨t, h, List.infix_rfl⟩

theorem bracedName?_append {name : Text} (hne : name ≠ []) (hname : '\x7d' ∉ name) (rest : Text) :
    bracedName? ('\x7b' :: name ++ '\x7d' :: rest) = some name := by
  have hopen : ∀ c ∈ name, decide (c ≠ '\x7d') = true := fun c hc =>
    decide_eq_true fun heq => hname (heq ▸ hc)
  have htake : (name ++ '\x7d' :: rest).takeWhile (· ≠ '\x7d') = name := by
    rw [List.takeWhile_append_of_pos hopen]
    simp
  have hdrop : (name ++ '\x7d' :: rest).dropWhile (· ≠ '\x7d') = '\x7d' :: rest := by
    rw [List.dropWhile_append_of_pos hopen]
    simp
  rw [List.cons_append]
  simp only [bracedName?, htake, hdrop]
  simp [hne]

theorem of_bracedName? {t name : Text} (h : bracedName? t = some name) :
    name ≠ [] ∧ '\x7d' ∉ name := by
  unfold bracedName? at h
  split at h
  · dsimp only at h
    split at h
    · cases h
    · rename_i hclosed
      obtain rfl := Option.some.inj h
      rw [Bool.or_eq_true, not_or, List.isEmpty_iff] at hclosed
      refine ⟨hclosed.1, fun hmem => ?_⟩
      simpa using List.mem_takeWhile_imp hmem
  · cases h

theorem reference_of_mem_scanFrom {offset : Nat} {t : Text} {token : Token}
    (h : token ∈ scanFrom offset t) (hreference : token.isReference = true) :
    Reference token.text := by
  obtain ⟨sigil, rest, name, hsigil, hname, htext⟩ := exists_bracedName_of_mem h hreference
  obtain ⟨hne, hclosed⟩ := of_bracedName? hname
  rw [htext]
  exact .intro hsigil hne hclosed

theorem Spells.infix_of_mem {offset : Nat} {t : Text} {tokens : List Token}
    (h : Spells offset t tokens) {token : Token} (htoken : token ∈ tokens) : token.text <:+: t := by
  induction h with
  | nil => cases htoken
  | @cons offset kind piece rest tokens _ _ ih =>
    rcases List.mem_cons.1 htoken with rfl | htoken
    · exact (List.prefix_append piece rest).isInfix
    · exact (ih htoken).trans (List.suffix_append piece rest).isInfix

/-- Leaving out characters that open no reference leaves every reference behind them. -/
theorem infix_dropWhile {c : Char} {word before behind : Text} {p : Char → Bool}
    (hc : p c = false) : c :: word <:+: (before ++ (c :: word) ++ behind).dropWhile p := by
  induction before with
  | nil => simpa [hc] using (List.prefix_append (c :: word) behind).isInfix
  | cons d before ih =>
    by_cases hd : p d = true
    · simpa [hd] using ih
    · simp only [List.cons_append, List.dropWhile_cons_of_neg hd]
      exact ⟨d :: before, behind, by simp⟩

theorem exists_reference_of_mentions {t : Text} (h : Mentions t) (offset : Nat) :
    ∃ token ∈ scanFrom offset t, token.isReference = true := by
  fun_induction scanFrom offset t with
  | case1 =>
    obtain ⟨_, ⟨-, -, -⟩, hinfix⟩ := h
    simp at hinfix
  | case2 offset c t kind text hlead ih =>
    have hlater (hrest : Mentions (t.drop (text.length - 1))) :
        ∃ token ∈ ⟨kind, text, offset, offset + text.length⟩ ::
          scanFrom (offset + text.length) (t.drop (text.length - 1)), token.isReference = true := by
      obtain ⟨token, htoken, hreference⟩ := ih hrest
      exact ⟨token, List.mem_cons_of_mem _ htoken, hreference⟩
    obtain ⟨_, @⟨sigil, name, hsigil, hne, hname⟩, before, behind, hsplit⟩ := h
    have hword := Reference.intro hsigil hne hname
    cases before with
    | nil =>
      obtain ⟨rfl, rfl⟩ : sigil = c ∧ '\x7b' :: name ++ '\x7d' :: behind = t := by
        simpa using hsplit
      rw [lead, if_pos hsigil, bracedName?_append hne hname] at hlead
      cases hlead
      exact ⟨_, List.mem_cons_self, rfl⟩
    | cons d before =>
      obtain ⟨rfl, rfl⟩ := List.cons.inj hsplit
      unfold lead at hlead
      split at hlead
      · split at hlead
        · cases hlead
          exact ⟨_, List.mem_cons_self, rfl⟩
        · cases hlead
          exact hlater ⟨_, hword, before, behind, rfl⟩
      · cases hlead
        refine hlater ⟨_, hword, ?_⟩
        rw [List.length_cons, Nat.add_sub_cancel, Text.drop_length_takeWhile]
        exact infix_dropWhile (by rw [hsigil]; rfl)

theorem exists_reference_iff {t : Text} (offset : Nat) :
    (∃ token ∈ scanFrom offset t, token.isReference = true) ↔ Mentions t := by
  refine ⟨?_, fun h => exists_reference_of_mentions h offset⟩
  rintro ⟨token, htoken, hreference⟩
  exact ⟨token.text, reference_of_mem_scanFrom htoken hreference,
    (spells_scanFrom offset t).infix_of_mem htoken⟩

theorem Reference.scan_eq {t : Text} (h : Reference t) :
    scan t = [⟨.reference, t, 0, t.length⟩] := by
  obtain @⟨sigil, name, hsigil, hne, hname⟩ := h
  have hlead : lead sigil ('\x7b' :: name ++ ['\x7d']) =
      (.reference, sigil :: '\x7b' :: name ++ ['\x7d']) := by
    rw [lead, if_pos hsigil, bracedName?_append hne hname]
  rw [scan, List.cons_append, List.cons_append, scanFrom, ← List.cons_append, hlead]
  simp [scanFrom]

end Token

theorem VariableUse.exists_ofToken? (cell : Cell) {token : Token} (h : token.isReference = true)
    (hword : Token.Reference token.text) : ∃ use, ofToken? cell token = some use := by
  obtain ⟨kind, text, start, stop⟩ := token
  obtain rfl : kind = .reference := by simpa [Token.isReference] using h
  obtain @⟨sigil, name, hsigil, -, -⟩ := hword
  obtain ⟨kind, hkind⟩ : ∃ kind, VariableKind.ofSigil? sigil = some kind := by
    simp only [Token.isSigil, Bool.or_eq_true, decide_eq_true_eq] at hsigil
    rcases hsigil with ((rfl | rfl) | rfl) | rfl <;> exact ⟨_, rfl⟩
  simp [ofToken?, Token.parts?, hkind]

namespace Expression

open Token

variable {cell : Cell}

theorem ofCell_cases (cell : Cell) :
    (¬ Mentions cell.content ∧ ofCell cell = .literal (.ofCell cell)) ∨
      (∃ use, Reference cell.content ∧ ofCell cell = .reference use ∧
        VariableUse.ofToken? cell ⟨.reference, cell.content, 0, cell.content.length⟩ = some use) ∨
      (Mentions cell.content ∧ ¬ Reference cell.content ∧
        ofCell cell = .template (.ofTokens cell (scan cell.content))) := by
  by_cases hmentions : Mentions cell.content
  · have hany : (scan cell.content).any isReference = true :=
      List.any_eq_true.2 (exists_reference_of_mentions hmentions 0)
    by_cases hwhole : Reference cell.content
    · have hreference :
          (⟨.reference, cell.content, 0, cell.content.length⟩ : Token).isReference = true := rfl
      obtain ⟨use, huse⟩ := VariableUse.exists_ofToken? cell hreference hwhole
      refine .inr (.inl ⟨use, hwhole, ?_, huse⟩)
      rw [ofCell, hwhole.scan_eq]
      simp [isReference, huse]
    · refine .inr (.inr ⟨hmentions, hwhole, ?_⟩)
      simp only [ofCell, hany, if_true]
      split
      · rename_i token hscan
        -- A lone token that is a reference would be the whole content.
        have hspells := hscan ▸ spells_scan cell.content
        have hreference : token.isReference = true := by simpa [hscan] using hany
        have hword := reference_of_mem_scanFrom (hscan ▸ List.mem_singleton_self token) hreference
        exact absurd (hspells.singleton ▸ hword) hwhole
      · rfl
  · refine .inl ⟨hmentions, ?_⟩
    have hnone : (scan cell.content).any isReference = false := by
      rw [Bool.eq_false_iff]
      exact fun hany => hmentions ((exists_reference_iff 0).1 (List.any_eq_true.1 hany))
    simp [ofCell, hnone]

end Expression

/-- Pieces of text and variables in turn, text first, each with its place. -/
def TemplateText.partsOf : List Literal → List VariableUse → List (Text × Location)
  | [], uses => uses.map fun use => (use.displayName, use.location)
  | piece :: pieces, [] => (piece.value, piece.location) :: partsOf pieces []
  | piece :: pieces, use :: uses =>
    (piece.value, piece.location) :: (use.displayName, use.location) :: partsOf pieces uses

/-- The parts that a value is written as, each with its place; a call has none of its own. -/
def Expression.parts : Expression → List (Text × Location)
  | literal plain => [(plain.value, plain.location)]
  | reference use => [(use.displayName, use.location)]
  | template mixed => TemplateText.partsOf mixed.pieces mixed.uses
  | call _ _ _ => []

/-- The parts stand one right behind the other from the character at `start` to the end of the
cell, each over the characters of the cell that are its text. -/
inductive Tiles (cell : Cell) : Nat → List (Text × Location) → Prop where
  | nil : Tiles cell cell.content.length []
  | cons {start : Nat} {text : Text} {location : Location} {rest : List (Text × Location)}
    (hplace : location = .parsed (cell.part start (start + text.length)))
    (htext : (cell.content.drop start).take text.length = text)
    (hrest : Tiles cell (start + text.length) rest) : Tiles cell start ((text, location) :: rest)

namespace Tiles

variable {cell : Cell}

theorem behind {front text back : Text} {location : Location} {rest : List (Text × Location)}
    (hcontent : cell.content = front ++ text ++ back)
    (hplace : location = .parsed (cell.part front.length (front ++ text).length))
    (hrest : Tiles cell (front ++ text).length rest) :
    Tiles cell front.length ((text, location) :: rest) := by
  rw [List.length_append] at hplace hrest
  refine .cons hplace ?_ hrest
  rw [hcontent, List.append_assoc, List.drop_left, List.take_left]

theorem whole {text : Text} {location : Location} (htext : text = cell.content)
    (hplace : location = .parsed (cell.part 0 cell.content.length)) :
    Tiles cell 0 [(text, location)] := by
  subst htext
  have hcontent : cell.content = [] ++ cell.content ++ [] := by simp
  exact behind hcontent hplace .nil

end Tiles

namespace TemplateText

variable {cell : Cell}

theorem location_piece (cell : Cell) (front text : Text) :
    (piece cell front.length text).location =
      .parsed (cell.part front.length (front ++ text).length) := by
  rw [List.length_append]
  rfl

/-- Plain text that is still being collected stands right before the next token. -/
theorem tiles_assemble {offset : Nat} {t : Text} {tokens : List Token}
    (htokens : Token.Spells offset t tokens) (hbraced : ∀ token ∈ tokens, token.Braced)
    (front text : Text) (hcontent : cell.content = front ++ text ++ t)
    (hoffset : offset = (front ++ text).length) :
    Tiles cell front.length (partsOf (assemble cell front.length text tokens).1
      (assemble cell front.length text tokens).2) := by
  induction htokens generalizing front text with
  | nil offset =>
    show Tiles cell front.length [(text, (piece cell front.length text).location)]
    refine .behind hcontent (location_piece cell front text) ?_
    rw [List.append_nil] at hcontent
    rw [← hcontent]
    exact .nil
  | @cons offset kind word rest tokens hne hrest ih =>
    rw [List.forall_mem_cons] at hbraced
    have hstop : offset + word.length = (front ++ text ++ word).length := by
      rw [hoffset, ← List.length_append]
    have hsplit : cell.content = front ++ text ++ word ++ rest := by
      rw [hcontent, List.append_assoc _ word]
    simp only [assemble]
    split
    · rename_i use huse
      have hlater := ih hbraced.2 (front ++ text ++ word) [] (by rw [hsplit, List.append_nil])
        (by rw [hstop, List.append_nil])
      rw [← hstop] at hlater
      show Tiles cell front.length ((text, (piece cell front.length text).location) ::
        (use.displayName, use.location) :: _)
      rw [hbraced.1.displayName huse, (VariableUse.location_ofToken? huse).1]
      refine .behind hcontent (location_piece cell front text) (.behind hsplit ?_ ?_)
      · rw [← hoffset, ← hstop]
      · rwa [← hstop]
    · refine ih hbraced.2 front (text ++ word) ?_ ?_
      · rw [hsplit, List.append_assoc front]
      · rw [hstop, List.append_assoc]

theorem tiles_ofTokens (cell : Cell) :
    Tiles cell 0 (partsOf (ofTokens cell (Token.scan cell.content)).pieces
      (ofTokens cell (Token.scan cell.content)).uses) :=
  tiles_assemble (Token.spells_scan cell.content) (fun _ => Token.braced_of_mem_scanFrom) [] [] rfl
    rfl

theorem length_assemble (cell : Cell) (start : Nat) (text : Text) (tokens : List Token) :
    (assemble cell start text tokens).1.length =
      (assemble cell start text tokens).2.length + 1 := by
  induction tokens generalizing start text with
  | nil => rfl
  | cons token tokens ih =>
    simp only [assemble]
    split
    · simp [ih]
    · exact ih start (text ++ token.text)

end TemplateText

namespace Expression

open Token

variable {cell : Cell}

theorem tiles_ofCell (hfits : cell.Fits) : Tiles cell 0 (ofCell cell).parts := by
  have hlocation : cell.location = .parsed (cell.part 0 cell.content.length) :=
    congrArg Location.parsed hfits
  obtain ⟨-, heq⟩ | ⟨use, hwhole, heq, huse⟩ | ⟨-, -, heq⟩ := ofCell_cases cell
  · rw [heq]
    exact .whole rfl hlocation
  · rw [heq]
    have hbraced : Braced ⟨.reference, cell.content, 0, cell.content.length⟩ := by
      have hscan : ⟨.reference, cell.content, 0, cell.content.length⟩ ∈ scan cell.content := by
        rw [hwhole.scan_eq]
        exact List.mem_singleton_self _
      exact braced_of_mem_scanFrom hscan
    exact .whole (hbraced.displayName huse) (VariableUse.location_ofToken? huse).1
  · rw [heq]
    exact TemplateText.tiles_ofTokens cell

theorem ofCell_kind_iff (cell : Cell) :
    ((∃ plain, ofCell cell = .literal plain) ↔ ¬ Mentions cell.content) ∧
      ((∃ use, ofCell cell = .reference use) ↔ Reference cell.content) ∧
      ((∃ mixed, ofCell cell = .template mixed) ↔
        Mentions cell.content ∧ ¬ Reference cell.content) := by
  obtain ⟨hnone, heq⟩ | ⟨use, hwhole, heq, -⟩ | ⟨hmentions, hpart, heq⟩ := ofCell_cases cell
  · have hwhole : ¬ Reference cell.content := fun h => hnone h.mentions
    simp [heq, hnone, hwhole]
  · simp [heq, hwhole, hwhole.mentions]
  · simp [heq, hmentions, hpart]

theorem length_pieces_ofCell {mixed : TemplateText} (h : ofCell cell = .template mixed) :
    mixed.pieces.length = mixed.uses.length + 1 := by
  obtain ⟨-, heq⟩ | ⟨_, -, heq, -⟩ | ⟨-, -, heq⟩ := ofCell_cases cell
  · cases heq.symm.trans h
  · cases heq.symm.trans h
  · cases heq.symm.trans h
    exact TemplateText.length_assemble cell 0 [] _

/-- A value is plain text, a variable or mixed text by the references that stand in its cell.
It is written as the content of the cell, and its parts tile the cell. -/
theorem ofCell_tiles_content (hfits : cell.Fits) :
    ((∃ plain, ofCell cell = .literal plain) ↔ ¬ Mentions cell.content) ∧
      ((∃ use, ofCell cell = .reference use) ↔ Reference cell.content) ∧
      ((∃ mixed, ofCell cell = .template mixed) ↔
        Mentions cell.content ∧ ¬ Reference cell.content) ∧
      (∀ mixed, ofCell cell = .template mixed → mixed.pieces.length = mixed.uses.length + 1) ∧
      (ofCell cell).texts = [cell.content] ∧ Tiles cell 0 (ofCell cell).parts := by
  obtain ⟨hliteral, hreference, htemplate⟩ := ofCell_kind_iff cell
  exact ⟨hliteral, hreference, htemplate, fun mixed hmixed => length_pieces_ofCell hmixed,
    texts_ofCell cell, tiles_ofCell hfits⟩

/-- A sigil that opens no reference is text, and between neighbouring variables there is an
empty piece. -/
theorem ofCell_tiles_lone_sigil :
    let cell : Cell := ⟨"é$$\x7ba$\x7bb\x7d&\x7bc\x7d".toList, .onLine 3 7 20⟩
    cell.Fits ∧
      (ofCell cell).parts = [("é$".toList, .parsed (.onLine 3 7 9)),
        ("$\x7ba$\x7bb\x7d".toList, .parsed (.onLine 3 9 16)), ([], .parsed (.onLine 3 16 16)),
        ("&\x7bc\x7d".toList, .parsed (.onLine 3 16 20)), ([], .parsed (.onLine 3 20 20))] ∧
      (∃ mixed, ofCell cell = .template mixed ∧
        mixed.pieces.length = mixed.uses.length + 1) ∧
      (ofCell cell).texts = [cell.content] ∧ Tiles cell 0 (ofCell cell).parts := by
  intro cell
  have hfits : cell.Fits := rfl
  obtain ⟨-, -, -, hlength, htexts, htiles⟩ := ofCell_tiles_content hfits
  obtain ⟨mixed, hmixed⟩ : ∃ mixed, ofCell cell = .template mixed := ⟨_, by cbv⟩
  exact ⟨hfits, by cbv, ⟨mixed, hmixed, hlength mixed hmixed⟩, htexts, htiles⟩

end Expression

end SuiteIndex
