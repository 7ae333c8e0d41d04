import SuiteIndex.Proofs.Script.Parameter
import SuiteIndex.Script.Reading

/-! # Where keywords stand

A keyword is located at the line of its `def`, and its parameters in the brackets of its
signature, which may be closed on a later line. Signatures come one below the other: the
lines of one end before the next one starts.
-/

namespace SuiteIndex.Script
open Node
open Glyph (Precedes)

theorem eq_append_of_closing? {depth index k : Nat} {t : Text}
    (h : closing? depth index t = some k) :
    ∃ front c behind, t = front ++ c :: behind ∧ isClosing c = true ∧ k = index + front.length := by
  induction t generalizing depth index with
  | nil => cases h
  | cons c t ih =>
    rw [closing?] at h
    split at h
    · rename_i hclosing
      cases h
      exact ⟨[], c, t, rfl, (Bool.and_eq_true _ _ ▸ hclosing).1, rfl⟩
    · obtain ⟨front, d, behind, rfl, hclosing, rfl⟩ := ih h
      refine ⟨c :: front, d, behind, rfl, hclosing, ?_⟩
      rw [List.length_cons]
      omega

/-- The name, with white space around it, ends before the opening bracket, and what stands
between the brackets ends before the closing one. -/
theorem reads_signature {glyphs : List Glyph} {defined width closed : Nat}
    (hdefined : Text.find? "def ".toList (glyphs.map Glyph.char) = some defined)
    (hwidth : Text.find? ['('] ((glyphs.map Glyph.char).drop (defined + 4)) = some width)
    (hclosed : closing? 0 (defined + 4 + width)
      ((glyphs.map Glyph.char).drop (defined + 4 + width)) = some closed) :
    let opened := defined + 4 + width
    let inside := ((glyphs.map Glyph.char).drop (opened + 1)).take (closed - (opened + 1))
    Reads glyphs (defined + 4) (((glyphs.map Glyph.char).drop (defined + 4)).take width) ∧
      Reads glyphs (opened + 1) inside ∧ closed = opened + 1 + inside.length ∧
      ∃ h : closed < glyphs.length, isClosing glyphs[closed].char = true := by
  obtain ⟨front, behind, htext, rfl⟩ := Text.eq_append_of_find? hdefined
  have hfront : (front ++ "def ".toList).length = front.length + 4 := by simp
  rw [htext, ← hfront, List.drop_left] at hwidth
  obtain ⟨raw, rest, rfl, rfl⟩ := Text.eq_append_of_find? hwidth
  generalize front ++ "def ".toList = front at htext hfront
  rw [← hfront] at hclosed ⊢
  -- The bracket that is closed is the opening one behind the name.
  have hdrop : (glyphs.map Glyph.char).drop (front.length + raw.length) = '(' :: rest := by
    rw [htext, ← List.length_append, List.append_assoc raw, ← List.append_assoc, List.drop_left]
    rfl
  rw [hdrop] at hclosed
  obtain ⟨before, c, behind, hrest, hc, rfl⟩ := eq_append_of_closing? hclosed
  cases before with
  | nil =>
    obtain rfl := (List.cons.inj hrest).1
    cases hc
  | cons d inside =>
    obtain rfl : rest = inside ++ c :: behind := (List.cons.inj hrest).2
    have htext : glyphs.map Glyph.char = front ++ raw ++ ['('] ++ inside ++ c :: behind := by
      simp [htext]
    have hopened : (front ++ raw ++ ['(']).length = front.length + raw.length + 1 := by
      simp only [List.length_append, List.length_singleton]
    have hend : (front ++ raw ++ ['('] ++ inside).length =
        front.length + raw.length + 1 + inside.length := by
      rw [List.length_append, hopened]
    have hinside : ((glyphs.map Glyph.char).drop (front.length + raw.length + 1)).take
        inside.length = inside := by
      rw [htext, ← hopened, List.append_assoc _ inside, List.drop_left, List.take_left]
    have hraw : ((glyphs.map Glyph.char).drop front.length).take raw.length = raw := by
      simp [htext]
    have hclosing : front.length + raw.length + (d :: inside).length =
        front.length + raw.length + 1 + inside.length := by
      rw [List.length_cons]
      omega
    have hlast : Reads glyphs (front.length + raw.length + 1 + inside.length) [c] :=
      ⟨_, behind, by rw [htext, List.append_cons], hend⟩
    dsimp only
    rw [hraw, hclosing, Nat.add_sub_cancel_left, hinside]
    refine ⟨⟨front, '(' :: inside ++ c :: behind, by simp [htext], rfl⟩, ⟨_, _, htext, hopened⟩,
      rfl, hlast.le_length, ?_⟩
    exact (hlast.char_eq Nat.one_pos hlast.le_length).symm ▸ hc

/-- The name and the brackets of a signature, as its keyword has them. -/
structure Signs (glyphs : List Glyph) (keyword : UserKeyword) (setting : Arguments) : Prop where
  arguments : keyword.arguments = some setting
  children : (userKeyword keyword).children = [identifier keyword.id, Node.arguments setting]
  name : ∃ start last, ∃ h : last < glyphs.length, start ≤ last ∧
    Text.isBlank glyphs[last].char = false ∧
    keyword.id.location = .parsed (spanOf glyphs start (last + 1))
  brackets : ∃ opened closed inside, ∃ h : closed < glyphs.length,
    Reads glyphs (opened + 1) inside ∧ closed = opened + 1 + inside.length ∧
    isClosing glyphs[closed].char = true ∧
    setting.values = declarations glyphs true (parameters (opened + 1) 0 none inside) ∧
    setting.location = .parsed (spanOf glyphs opened (closed + 1)) ∧
    setting.id.location = .parsed (spanOf glyphs opened (closed + 1))

theorem exists_last_of_trim {glyphs : List Glyph} {index : Nat} {raw : Text}
    (h : Reads glyphs index raw) (hne : Text.trim raw ≠ []) :
    let start := index + Text.indentation raw
    ∃ last, ∃ h : last < glyphs.length, start ≤ last ∧
      start + (Text.trim raw).length = last + 1 ∧ Text.isBlank glyphs[last].char = false := by
  obtain ⟨behind, hraw, -⟩ := Text.exists_trim_append raw
  have hpos := List.length_pos_iff.2 hne
  rw [hraw] at h
  have hname := h.sub
  have hlength := hname.le_length
  rw [Text.indentation]
  generalize index + (raw.takeWhile Text.isBlank).length = start at hname hlength ⊢
  have hlast : start + ((Text.trim raw).length - 1) < glyphs.length := by omega
  refine ⟨_, hlast, by omega, by omega, ?_⟩
  rw [hname.char_eq (by omega)]
  apply Text.isBlank_getLast_trim (t := raw)
  rw [List.getLast?_eq_getElem?, List.getElem?_eq_getElem]

theorem signs_keyword? {moduleName : Text} {number : Nat} {line : Text} {glyphs : List Glyph}
    {keyword : UserKeyword} (h : keyword? moduleName number line glyphs = some keyword) :
    keyword.location = .parsed (.onLine number 0 line.length) ∧
      ∃ setting, Signs glyphs keyword setting := by
  simp only [keyword?, Option.bind_eq_bind, Option.bind_eq_some_iff] at h
  obtain ⟨defined, hdefined, width, hwidth, h⟩ := h
  split at h
  · cases h
  rename_i hname
  simp only [Option.bind_eq_some_iff] at h
  obtain ⟨closed, hclosed, h⟩ := h
  obtain rfl := Option.some.inj h
  obtain ⟨hreads, hinside, hlength, hlast, hclosing⟩ := reads_signature hdefined hwidth hclosed
  simp only [Bool.or_eq_true, not_or, List.isEmpty_iff] at hname
  obtain ⟨last, hend, hle, hstop, hblank⟩ := exists_last_of_trim hreads hname.1
  refine ⟨rfl, _, rfl, ?_, ⟨_, last, hend, hle, hblank, ?_⟩,
    ⟨_, closed, _, hlast, hinside, hlength, hclosing, rfl, rfl, rfl⟩⟩
  · simp [children_eq, fields, UserKeyword.named]
  · rw [← hstop]
    show (Identifier.declared _ _).location = _
    unfold Identifier.declared
    split <;> rfl

/-- Where a parameter of a keyword stands: it starts on one of the lines from `first` to
the one before `next`, and there is a position in its name on the line on which it starts.
The keyword is located at the first `width` columns of the line `first`. -/
def StandsIn (first next width : Nat) (setting : Arguments) (parameter : Declaration) : Prop :=
  ∃ span position, parameter.location = .parsed span ∧
    first ≤ span.start.line ∧ span.start.line < next ∧
    position.line = span.start.line ∧ (position.line = first → position.column ≤ width) ∧
    setting.location.contains position = true ∧
    parameter.location.contains position = true ∧
    parameter.id.location.contains position = true

/-- A keyword that is read from a signature on the lines from `first` to the one before
`next`. -/
structure Signed (first next width : Nat) (setting : Arguments) (keyword : UserKeyword) : Prop where
  location : keyword.location = .parsed (.onLine first 0 width)
  arguments : keyword.arguments = some setting
  children : (userKeyword keyword).children = [identifier keyword.id, Node.arguments setting]
  located : Throughout Located (userKeyword keyword)
  apart : (setting.values.map variableDeclaration).Pairwise Apart
  parameters : ∀ parameter ∈ setting.values, StandsIn first next width setting parameter

section

variable {number next width : Nat} {glyphs : List Glyph} {keyword : UserKeyword}
  {setting : Arguments}

theorem Signs.located_arguments (h : Signs glyphs keyword setting)
    (hordered : glyphs.IsChain Precedes) : Throughout Located (Node.arguments setting) := by
  obtain ⟨opened, closed, inside, hlast, hreads, hclosed, -, hvalues, hlocation, hid⟩ := h.brackets
  refine located_of_children hlocation fun child hchild => ?_
  obtain rfl | ⟨parameter, hparameter, rfl⟩ : child = identifier setting.id ∨
      ∃ parameter ∈ setting.values, variableDeclaration parameter = child := by
    simpa [children_eq, fields] using hchild
  · exact ⟨located_of_children hid (by simp), _, hid, le_rfl⟩
  · rw [hvalues] at hparameter
    obtain ⟨first, text, hdeclares, -, hfirst, hend⟩ := exists_declares_of_mem hreads hparameter
    have hpos := hdeclares.length_pos
    refine ⟨hdeclares.located hordered (by omega), _, hdeclares.location, ?_⟩
    exact spanOf_le hordered (by omega) (by omega) (by omega) (by omega) hlast

theorem Signs.standsIn (h : Signs glyphs keyword setting)
    (htaken : TakenFrom number next width glyphs) {parameter : Declaration}
    (hparameter : parameter ∈ setting.values) : StandsIn number next width setting parameter := by
  obtain ⟨opened, closed, inside, hlast, hreads, hclosed, -, hvalues, hlocation, hid⟩ := h.brackets
  rw [hvalues] at hparameter
  obtain ⟨first, text, hdeclares, htext, hfirst, hend⟩ := exists_declares_of_mem hreads hparameter
  have hpos := hdeclares.length_pos
  have hle : spanOf glyphs first (first + text.length) ≤ spanOf glyphs opened (closed + 1) :=
    spanOf_le htaken.ordered (by omega) (by omega) (by omega) (by omega) hlast
  obtain ⟨hlow, hhigh⟩ : number ≤ (spanOf glyphs first (first + text.length)).start.line ∧
      (spanOf glyphs first (first + text.length)).start.line < next :=
    htaken.start_line (by omega) (by omega) (by omega)
  obtain ⟨glyph, hglyph, hline, hcontains, hname⟩ :=
    hdeclares.exists_glyph htaken.ordered htext (by omega)
  refine ⟨_, glyph.position, hdeclares.location, hlow, hhigh, hline, fun h => ?_, ?_, hcontains,
    hname⟩
  · exact (htaken.columns glyph hglyph h).1
  · rw [hdeclares.location] at hcontains
    rw [hlocation]
    exact Span.contains_of_le hle hcontains

theorem Signs.apart_values (h : Signs glyphs keyword setting)
    (hordered : glyphs.IsChain Precedes) :
    (setting.values.map variableDeclaration).Pairwise Apart := by
  obtain ⟨opened, closed, inside, hlast, hreads, hclosed, -, hvalues, -⟩ := h.brackets
  have hcut := cut_parameters (opened + 1) 0 none inside
  rw [hvalues]
  refine apart_declarations hordered hcut.apart fun part hpart => ?_
  have hlength := (hcut.reads hreads hpart).2
  omega

theorem signed_keyword? {moduleName line : Text}
    (htaken : TakenFrom number next line.length glyphs)
    (h : keyword? moduleName number line glyphs = some keyword) :
    ∃ setting, Signed number next line.length setting keyword := by
  obtain ⟨hlocation, setting, hsigns⟩ := signs_keyword? h
  obtain ⟨start, last, hend, hstart, hblank, hid⟩ := hsigns.name
  obtain ⟨opened, closed, inside, hclosed, hreads, hlength, hclosing, -, hsetting, -⟩ :=
    hsigns.brackets
  refine ⟨setting, hlocation, hsigns.arguments, hsigns.children, ?_,
    hsigns.apart_values htaken.ordered, fun parameter => hsigns.standsIn htaken⟩
  rw [throughout_iff, hsigns.children]
  simp only [List.forall_mem_cons, List.not_mem_nil, false_imp_iff, implies_true, and_true]
  refine ⟨⟨_, hlocation, ?_⟩, located_of_children hid (by simp),
    hsigns.located_arguments htaken.ordered⟩
  rw [hsigns.children]
  simp only [List.forall_mem_cons, List.not_mem_nil, false_imp_iff, implies_true, and_true]
  refine ⟨⟨_, hid, ?_⟩, _, hsetting, ?_⟩
  · have hchar : glyphs[last].char ≠ ' ' := by
      intro hspace
      rw [hspace] at hblank
      cases hblank
    exact (htaken.encloses_or_lt (by omega) hend hchar).imp id fun hlt => ⟨rfl, hlt⟩
  · have hchar : glyphs[closed].char ≠ ' ' := by
      intro hspace
      rw [hspace] at hclosing
      cases hclosing
    exact (htaken.encloses_or_lt (by omega) hclosed hchar).imp id fun hlt => ⟨rfl, hlt⟩

end

/-- A keyword that is read from the lines from `first` to the one before `next` of a text. -/
def Occupies (lines : List Text) (first next : Nat) (keyword : UserKeyword) : Prop :=
  first < next ∧ ∃ line setting, lines[first]? = some line ∧
    Signed first next line.length setting keyword

/-- Keywords that are read one below the other, from the line `number` on. -/
inductive Listed (lines : List Text) : Nat → List UserKeyword → Prop where
  | nil (number : Nat) : Listed lines number []
  | cons {number first next : Nat} {keyword : UserKeyword} {rest : List UserKeyword}
    (hfirst : number ≤ first) (hkeyword : Occupies lines first next keyword)
    (hrest : Listed lines next rest) : Listed lines number (keyword :: rest)

namespace Listed

variable {lines : List Text} {number : Nat} {found : List UserKeyword} {a b : UserKeyword}

theorem mono {below : Nat} (h : Listed lines below found) (hle : number ≤ below) :
    Listed lines number found := by
  cases h with
  | nil => exact .nil number
  | cons hfirst hkeyword hrest => exact .cons (hle.trans hfirst) hkeyword hrest

theorem exists_occupies (h : Listed lines number found) (ha : a ∈ found) :
    ∃ first next, number ≤ first ∧ Occupies lines first next a := by
  induction h with
  | nil => cases ha
  | cons hfirst hkeyword _ ih =>
    rcases List.mem_cons.1 ha with rfl | ha
    · exact ⟨_, _, hfirst, hkeyword⟩
    · obtain ⟨other, last, hother, hbelow⟩ := ih ha
      have hnext := hkeyword.1
      exact ⟨other, last, by omega, hbelow⟩

theorem exists_apart (h : Listed lines number found) (ha : a ∈ found) (hb : b ∈ found)
    (hne : a ≠ b) : ∃ first next other last, Occupies lines first next a ∧
      Occupies lines other last b ∧ (next ≤ other ∨ last ≤ first) := by
  induction h with
  | nil => cases ha
  | cons _ hkeyword hrest ih =>
    rw [List.mem_cons] at ha hb
    rcases ha with rfl | ha
    · obtain ⟨other, last, hother, hbelow⟩ := hrest.exists_occupies (hb.resolve_left hne.symm)
      exact ⟨_, _, other, last, hkeyword, hbelow, .inl hother⟩
    · rcases hb with rfl | hb
      · obtain ⟨first, next, hfirst, hbelow⟩ := hrest.exists_occupies ha
        exact ⟨first, next, _, _, hbelow, hkeyword, .inr hfirst⟩
      · exact ih ha hb

end Listed

theorem listed_keywords (lines : List Text) (moduleName : Text) (scope : Scope) (number : Nat) :
    Listed lines number (keywords moduleName scope number (lines.drop number)) := by
  generalize hlines : lines.drop number = rest
  have htail {line : Text} {number : Nat} {rest : List Text}
      (h : lines.drop number = line :: rest) : lines.drop (number + 1) = rest := by
    rw [← List.tail_drop, h, List.tail_cons]
  fun_induction keywords moduleName scope number rest with
  | case1 scope number => exact .nil number
  | case2 scope number line rest text hskip ih =>
    exact (ih (htail hlines)).mono (Nat.le_succ number)
  | case3 scope number line rest text hkept indent within hdef glyphs count hsignature ih =>
    have hcount := one_le_signature number ⟨0, false⟩ line rest
    have htaken := takenFrom_signature number ⟨0, false⟩ (line :: rest)
    rw [hsignature] at hcount htaken
    have hbelow : Listed lines (number + count)
        (keywords moduleName within (number + count) (rest.drop (count - 1))) := by
      apply ih
      rw [← htail hlines, List.drop_drop]
      congr 1
      omega
    cases hkeyword : keyword? moduleName number line glyphs with
    | none => exact hbelow.mono (Nat.le_add_right number count)
    | some keyword =>
      obtain ⟨setting, hsigned⟩ := signed_keyword? htaken hkeyword
      have hline : lines[number]? = some line := by
        rw [← List.head?_drop, hlines, List.head?_cons]
      exact .cons le_rfl ⟨by omega, line, setting, hline, hsigned⟩ hbelow
  | case4 scope number line rest text hkept indent within hdef ih =>
    exact (ih (htail hlines)).mono (Nat.le_succ number)

end SuiteIndex.Script
