import SuiteIndex.Proofs.Token.Lexer

/-! # Targets of declarations

A cell declares a variable if it begins with a reference and nothing follows but white space,
perhaps around an equals sign. Where a default is allowed, it is all that stands behind an equals
sign that follows directly, and an equals sign anywhere else is refused.
-/

namespace SuiteIndex

namespace Text

theorem trim_eq_nil_iff {t : Text} : trim t = [] ↔ ∀ c ∈ t, isBlank c = true := by
  refine ⟨isBlank_of_trim_eq_nil, fun h => ?_⟩
  rw [trim_eq, List.dropWhile_eq_nil_iff.2 h]
  rfl

theorem trim_eq_singleton_iff {t : Text} {c : Char} (hc : isBlank c = false) :
    trim t = [c] ↔ ∃ before behind, t = before ++ c :: behind ∧
      (∀ d ∈ before, isBlank d = true) ∧ ∀ d ∈ behind, isBlank d = true := by
  constructor
  · intro h
    obtain ⟨behind, ht, hbehind⟩ := exists_trim_append t
    rw [h, ← List.append_cons] at ht
    exact ⟨t.takeWhile isBlank, behind, ht, fun d hd => List.mem_takeWhile_imp hd, hbehind⟩
  · rintro ⟨before, behind, rfl, hbefore, hbehind⟩
    rw [List.append_cons]
    exact trim_append hbefore (by simp [hc]) (by simp [hc]) hbehind

end Text

namespace VariableKind

/-- A name that can stand between the braces of a reference. -/
def IsName (name : Text) : Prop :=
  name ≠ [] ∧ '\x7d' ∉ name

@[simp] theorem ofSigil?_sigil (kind : VariableKind) : ofSigil? kind.sigil = some kind := by
  cases kind <;> rfl

theorem isSigil_sigil (kind : VariableKind) : Token.isSigil kind.sigil = true := by
  cases kind <;> rfl

theorem reference_of_isName (kind : VariableKind) {name : Text} (h : IsName name) :
    Token.Reference (kind.reference name) :=
  .intro kind.isSigil_sigil h.1 h.2

theorem exists_of_reference {t : Text} (h : Token.Reference t) :
    ∃ kind name, IsName name ∧ t = reference kind name := by
  obtain @⟨sigil, name, hsigil, hne, hname⟩ := h
  obtain ⟨kind, rfl⟩ : ∃ kind : VariableKind, kind.sigil = sigil := by
    simp only [Token.isSigil, Bool.or_eq_true, decide_eq_true_eq] at hsigil
    rcases hsigil with ((rfl | rfl) | rfl) | rfl
    exacts [⟨.scalar, rfl⟩, ⟨.list, rfl⟩, ⟨.environment, rfl⟩, ⟨.dictionary, rfl⟩]
  exact ⟨kind, name, ⟨hne, hname⟩, rfl⟩

end VariableKind

/-- The characters of the cell under a span on its line. -/
def Cell.under (cell : Cell) (span : Span) : Text :=
  (cell.content.drop (span.start.column - cell.span.start.column)).take
    (span.stop.column - span.start.column)

theorem Cell.under_part {cell : Cell} {front text back : Text}
    (h : cell.content = front ++ text ++ back) :
    cell.under (cell.part front.length (front.length + text.length)) = text := by
  simp only [under, part, Span.onLine, Nat.add_sub_add_left, Nat.add_sub_cancel_left]
  rw [h, List.append_assoc, List.drop_left, List.take_left]

namespace Target

open VariableKind (IsName)

/-- The target that a reference at the start of a cell declares. -/
def declared (cell : Cell) (kind : VariableKind) (name : Text) (default? : Option Expression) :
    Target :=
  ⟨⟨none, name, .parsed (cell.part 0 (kind.reference name).length)⟩, kind, default?, cell.location⟩

/-- The cell of a text behind a reference at the start of a cell and one more character. -/
def behindSign (cell : Cell) (reference text : Text) : Cell :=
  ⟨text, cell.part (reference.length + 1) (reference.length + 1 + text.length)⟩

variable {cell : Cell} {allowDefault : Bool} {target : Target}

theorem exists_reference (h : ofCell? allowDefault cell = some target) :
    ∃ (kind : VariableKind) (name rest : Text), IsName name ∧
      cell.content = kind.reference name ++ rest := by
  simp only [ofCell?, Option.bind_eq_bind, Option.bind_eq_some_iff] at h
  obtain ⟨head, hhead, parts, hparts, -⟩ := h
  obtain ⟨-, -, hcontent⟩ := (Token.spells_scan cell.content).head hhead
  have hreference := Token.reference_of_mem_scanFrom (List.mem_of_head? hhead)
    (Token.isReference_of_parts? hparts)
  obtain ⟨kind, name, hname, htext⟩ := VariableKind.exists_of_reference hreference
  exact ⟨kind, name, _, hname, htext ▸ hcontent⟩

theorem ofCell?_of_reference {kind : VariableKind} {name rest : Text} (hname : IsName name)
    (hcontent : cell.content = kind.reference name ++ rest) :
    ofCell? allowDefault cell =
      if Text.trim rest = [] ∨ Text.trim rest = ['='] ∧ allowDefault = false then
        some (declared cell kind name none)
      else if allowDefault then (Text.after? ['='] rest).map fun text =>
        declared cell kind name (some (.ofCell (behindSign cell (kind.reference name) text)))
      else none := by
  have hhead := (kind.reference_of_isName hname).head?_scan rest
  have hparts : Token.parts? ⟨.reference, kind.reference name, 0, (kind.reference name).length⟩ =
      some (kind.sigil, name) := by
    simp [Token.parts?, VariableKind.reference]
  rw [← hcontent] at hhead
  simp only [ofCell?, hhead, hparts, VariableKind.ofSigil?_sigil, Option.bind_eq_bind,
    Option.bind_some]
  rw [hcontent, List.drop_left]
  cases allowDefault with
  | false => simp [declared]
  | true => simp [declared, behindSign, Option.map_eq_bind]

/-- A reference declares its variable if white space follows it. Without defaults there may be an
equals sign in the white space; with defaults, an equals sign right behind the reference is
followed by the default. -/
inductive Declares (cell : Cell) : Bool → Target → Prop where
  | alone {kind : VariableKind} {name rest : Text} (allowDefault : Bool) (hname : IsName name)
    (hcontent : cell.content = kind.reference name ++ rest)
    (hrest : ∀ c ∈ rest, Text.isBlank c = true) :
    Declares cell allowDefault (declared cell kind name none)
  | assigned {kind : VariableKind} {name before behind : Text} (hname : IsName name)
    (hcontent : cell.content = kind.reference name ++ (before ++ '=' :: behind))
    (hbefore : ∀ c ∈ before, Text.isBlank c = true)
    (hbehind : ∀ c ∈ behind, Text.isBlank c = true) :
    Declares cell false (declared cell kind name none)
  | default {kind : VariableKind} {name text : Text} (hname : IsName name)
    (hcontent : cell.content = kind.reference name ++ '=' :: text) :
    Declares cell true
      (declared cell kind name (some (.ofCell (behindSign cell (kind.reference name) text))))

theorem declares_of_ofCell? (h : ofCell? allowDefault cell = some target) :
    Declares cell allowDefault target := by
  obtain ⟨kind, name, rest, hname, hcontent⟩ := exists_reference h
  rw [ofCell?_of_reference hname hcontent] at h
  split at h
  · rename_i hrest
    obtain rfl := Option.some.inj h
    rcases hrest with hblank | ⟨hsign, rfl⟩
    · exact .alone allowDefault hname hcontent (Text.trim_eq_nil_iff.1 hblank)
    · obtain ⟨before, behind, rfl, hbefore, hbehind⟩ :=
        (Text.trim_eq_singleton_iff (c := '=') (by decide)).1 hsign
      exact .assigned hname hcontent hbefore hbehind
  · split at h
    · rename_i hallow
      obtain ⟨text, htext, rfl⟩ := Option.map_eq_some_iff.1 h
      obtain rfl := Text.eq_append_of_after? htext
      obtain rfl := hallow
      exact .default hname hcontent
    · cases h

theorem Declares.ofCell?_eq (h : Declares cell allowDefault target) :
    ofCell? allowDefault cell = some target := by
  cases h with
  | alone _ hname hcontent hrest =>
    rw [ofCell?_of_reference hname hcontent, if_pos (.inl (Text.trim_eq_nil_iff.2 hrest))]
  | assigned hname hcontent hbefore hbehind =>
    have htrim := (Text.trim_eq_singleton_iff (c := '=') (by decide)).2
      ⟨_, _, rfl, hbefore, hbehind⟩
    rw [ofCell?_of_reference hname hcontent, if_pos (.inr ⟨htrim, rfl⟩)]
  | @default kind name text hname hcontent =>
    have hsign : Text.trim ('=' :: text) ≠ [] := fun h =>
      absurd (Text.trim_eq_nil_iff.1 h '=' List.mem_cons_self) (by decide)
    rw [ofCell?_of_reference hname hcontent, if_neg (by simp [hsign]), if_pos rfl]
    simp [Text.after?]

theorem Declares.exists_under (h : Declares cell allowDefault target) :
    ∃ span, target.id.location = .parsed span ∧ span.start.line = cell.span.start.line ∧
      span.stop.line = cell.span.start.line ∧
      cell.under span = target.kind.reference target.id.name := by
  obtain ⟨kind, name, rest, default?, hcontent, rfl⟩ : ∃ (kind : VariableKind) (name rest : Text)
      (default? : Option Expression), cell.content = kind.reference name ++ rest ∧
        target = declared cell kind name default? := by
    cases h with
    | alone _ _ hcontent _ => exact ⟨_, _, _, _, hcontent, rfl⟩
    | assigned _ hcontent _ _ => exact ⟨_, _, _, _, hcontent, rfl⟩
    | default _ hcontent => exact ⟨_, _, _, _, hcontent, rfl⟩
  refine ⟨_, rfl, rfl, rfl, ?_⟩
  have hunder := Cell.under_part (show cell.content = [] ++ kind.reference name ++ rest from hcontent)
  simpa [declared] using hunder

/-- A cell is read as a target just if it declares one, and the characters that the name of the
target is located at are those of the reference. -/
theorem ofCell?_eq_some_iff_declares (cell : Cell) (allowDefault : Bool) (target : Target) :
    (ofCell? allowDefault cell = some target ↔ Declares cell allowDefault target) ∧
      (ofCell? allowDefault cell = some target → ∃ span, target.id.location = .parsed span ∧
        span.start.line = cell.span.start.line ∧ span.stop.line = cell.span.start.line ∧
        cell.under span = target.kind.reference target.id.name) :=
  ⟨⟨declares_of_ofCell?, Declares.ofCell?_eq⟩, fun h => (declares_of_ofCell? h).exists_under⟩

/-- White space that is not in ASCII stands before the equals sign, so the default is missing
where one could stand. -/
theorem ofCell?_eq_some_of_wide_blank :
    let cell : Cell := ⟨"@\x7bé &\x7d\u00a0= ".toList, .onLine 3 4 13⟩
    let target : Target :=
      ⟨⟨none, "é &".toList, .parsed (.onLine 3 4 10)⟩, .list, none, .parsed (.onLine 3 4 13)⟩
    ofCell? false cell = some target ∧ Declares cell false target ∧ ofCell? true cell = none ∧
      ∃ span, target.id.location = .parsed span ∧ span.start.line = 3 ∧ span.stop.line = 3 ∧
        cell.under span = "@\x7bé &\x7d".toList := by
  intro cell target
  have hdeclares : Declares cell false target :=
    @Declares.assigned cell .list "é &".toList ['\u00a0'] [' '] ⟨by decide, by decide⟩ rfl
      (List.forall_mem_singleton.2 (by decide)) (List.forall_mem_singleton.2 (by decide))
  have htarget := (ofCell?_eq_some_iff_declares cell false target).1.2 hdeclares
  have hunder := (ofCell?_eq_some_iff_declares cell false target).2 htarget
  exact ⟨htarget, hdeclares, by cbv, hunder⟩

end Target

end SuiteIndex
