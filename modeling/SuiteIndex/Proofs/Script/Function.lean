import SuiteIndex.Proofs.Script.RoundTrip

/-! # Functions that leave each other alone

The parameters of a function may have annotations and defaults of any form, and the strings
among them may hold commas, brackets and hash signs. Commas in strings separate nothing. But
the end of a signature is looked for without regard to quotes, and on the whole line of the
`def`. So a function leaves the lines below it alone exactly if this line is closed, with the
brackets in its strings and behind its colon counted too. Then it is read as one keyword.
-/

namespace SuiteIndex.Script

/-- The characters of names in any script. -/
def isWordChar (c : Char) : Bool :=
  isNameChar c || (128 ≤ c.toNat && !Text.isBlank c)

theorem isBlank_of_isWordChar {c : Char} (h : isWordChar c = true) : Text.isBlank c = false := by
  rw [isWordChar, Bool.or_eq_true, Bool.and_eq_true, Bool.not_eq_true'] at h
  rcases h with h | h
  · exact isBlank_of_isNameChar h
  · exact h.2

/-- A name in any script. -/
structure Word where
  text : Text
  ne_nil : text ≠ []
  all_isWordChar : text.all isWordChar = true

namespace Word

variable (word : Word)

theorem isBlank_of_mem {c : Char} (h : c ∈ word.text) : Text.isBlank c = false :=
  isBlank_of_isWordChar (List.all_eq_true.1 word.all_isWordChar c h)

theorem not_mem {c : Char} (hc : isWordChar c = false) : c ∉ word.text := by
  intro h
  rw [List.all_eq_true.1 word.all_isWordChar c h] at hc
  cases hc

theorem inert : Inert word.text :=
  inert_of_forall (p := isWordChar) (by decide) (List.all_eq_true.1 word.all_isWordChar)

theorem trim_text : Text.trim word.text = word.text :=
  Text.trim_eq_self_of_forall fun _ => word.isBlank_of_mem

end Word

/-- A parameter of a function: a name behind no star, one or two. -/
inductive Formal where
  | plain (name : Word)
  | list (name : Word)
  | dictionary (name : Word)

namespace Formal

def name : Formal → Word
  | plain name | list name | dictionary name => name

def kind : Formal → VariableKind
  | plain _ => .scalar
  | list _ => .list
  | dictionary _ => .dictionary

def stars : Formal → Text
  | plain _ => []
  | list _ => ['*']
  | dictionary _ => ['*', '*']

/-- The parameter up to its annotation and its default, with white space around the name. -/
def spaced (formal : Formal) (lead gap : Text) : Text :=
  formal.stars ++ (lead ++ formal.name.text) ++ gap

/-- The declaration is that of the parameter. -/
structure ReadsAs (formal : Formal) (declaration : Declaration) : Prop where
  qualifier : declaration.id.qualifier = none
  name : declaration.id.name = formal.name.text
  kind : declaration.kind = formal.kind

end Formal

/-- What a text between commas declares. Behind the name stands an annotation, a default, both or
nothing. A lone star or slash and nothing at all declare no parameter. -/
inductive Declaring : Text → Option Formal → Prop where
  | nothing : Declaring [] none
  | star : Declaring ['*'] none
  | slash : Declaring ['/'] none
  | formal (formal : Formal) (lead gap ending : Text) {t : Text}
    (ht : t = formal.spaced lead gap ++ ending) (hlead : lead.all Text.isBlank = true)
    (hgap : gap.all Text.isBlank = true)
    (hending : ending.head?.all (fun c => c = ':' || c = '=') = true) : Declaring t (some formal)

/-- A text between commas, which stands in no bracket and no quote that is not its own. -/
structure Piece where
  raw : Text
  isWhole : Script.isWhole 0 none raw = true
  formal? : Option Formal
  declaring : Declaring (Text.trim raw) formal?

/-- The parameters that pieces declare, up to a first piece that is `self` alone. -/
def formalsOf : List Piece → List Formal
  | [] => []
  | first :: rest =>
    (if Text.trim first.raw = "self".toList then [] else first.formal?.toList) ++
      rest.flatMap (·.formal?.toList)

namespace Formal

variable (formal : Formal) {lead gap ending : Text}

theorem not_mem_spaced (hlead : ∀ c ∈ lead, Text.isBlank c = true)
    (hgap : ∀ c ∈ gap, Text.isBlank c = true) {c : Char} (hstar : c ≠ '*')
    (hblank : Text.isBlank c = false) (hword : isWordChar c = false) :
    c ∉ formal.spaced lead gap := by
  have hnot {t : Text} (h : ∀ c ∈ t, Text.isBlank c = true) : c ∉ t := fun hc => by
    rw [h c hc] at hblank
    cases hblank
  have hstars : c ∉ formal.stars := by cases formal <;> simp [stars, hstar]
  simp only [spaced, List.mem_append, not_or]
  exact ⟨⟨hstars, hnot hlead, formal.name.not_mem hword⟩, hnot hgap⟩

theorem trim_spaced (hlead : ∀ c ∈ lead, Text.isBlank c = true)
    (hgap : ∀ c ∈ gap, Text.isBlank c = true) :
    Text.trim ((Text.trim (formal.spaced lead gap)).drop formal.stars.length) =
      formal.name.text := by
  have hhead (c : Char) (hc : formal.name.text.head? = some c) : Text.isBlank c = false :=
    formal.name.isBlank_of_mem (List.mem_of_mem_head? hc)
  have hlast (c : Char) (hc : formal.name.text.getLast? = some c) : Text.isBlank c = false :=
    formal.name.isBlank_of_mem (List.mem_of_getLast? hc)
  have hnil : ∀ c ∈ ([] : Text), Text.isBlank c = true := by simp
  rw [spaced]
  by_cases hstars : formal.stars = []
  · rw [hstars, List.nil_append, Text.trim_append hlead hhead hlast hgap, List.length_nil,
      List.drop_zero, formal.name.trim_text]
  · have hstar (c : Char) (hc : (formal.stars ++ (lead ++ formal.name.text)).head? = some c) :
        Text.isBlank c = false := by
      obtain rfl : '*' = c := by
        cases formal with
        | plain => exact absurd rfl hstars
        | list | dictionary => simpa [stars] using hc
      rfl
    have hend (c : Char) (hc : (formal.stars ++ (lead ++ formal.name.text)).getLast? = some c) :
        Text.isBlank c = false := by
      rw [← List.append_assoc, List.getLast?_append,
        List.getLast?_eq_some_getLast formal.name.ne_nil, Option.some_or,
        ← List.getLast?_eq_some_getLast] at hc
      exact hlast c hc
    have htrim := Text.trim_append hnil hstar hend hgap
    rw [List.nil_append] at htrim
    rw [htrim, List.drop_left, Text.trim_append_left hlead hhead hlast]

theorem starsOf_spaced (hlead : ∀ c ∈ lead, Text.isBlank c = true) (gap ending : Text) :
    starsOf (formal.spaced lead gap ++ ending) = (formal.kind, formal.stars.length) := by
  obtain ⟨c, t, hc, hstar⟩ : ∃ c t, lead ++ formal.name.text = c :: t ∧ c ≠ '*' := by
    obtain ⟨c, t, hcons⟩ := List.exists_cons_of_ne_nil
      (List.append_ne_nil_of_right_ne_nil lead formal.name.ne_nil)
    refine ⟨c, t, hcons, ?_⟩
    rintro rfl
    rcases List.mem_append.1 (hcons ▸ List.mem_cons_self : '*' ∈ lead ++ formal.name.text) with h | h
    · exact absurd (hlead _ h) (by decide)
    · exact formal.name.not_mem (by decide) h
  rw [spaced, hc]
  cases formal <;> simp [stars, kind, starsOf, hstar]

theorem spaced_ne {c : Char} (hc : isWordChar c = false) (lead gap ending : Text) :
    formal.spaced lead gap ++ ending ≠ [c] := by
  intro heq
  obtain ⟨d, t, hname⟩ := List.exists_cons_of_ne_nil formal.name.ne_nil
  have hd : d ∈ formal.spaced lead gap ++ ending := by simp [spaced, hname]
  rw [heq, List.mem_singleton] at hd
  exact formal.name.not_mem hc (hd ▸ hname ▸ List.mem_cons_self)

end Formal

/-- The first equals sign ends what stands in front of a default. A colon may come before it. -/
theorem exists_splitFirst {front ending : Text} (hfront : '=' ∉ front)
    (hending : ∀ c ∈ ending.head?, c = ':' ∨ c = '=') :
    ∃ behind, (∀ c ∈ behind.head?, c = ':') ∧
      (Text.splitFirst '=' (front ++ ending) = none ∧ behind = ending ∨
        ∃ default, Text.splitFirst '=' (front ++ ending) = some (front ++ behind, default)) := by
  by_cases hequals : '=' ∈ ending
  · obtain ⟨behind, default, rfl, hbehind⟩ := List.eq_append_cons_of_mem hequals
    refine ⟨behind, fun c hc => ?_, .inr ⟨default, ?_⟩⟩
    · have hcolon := hending c (by simp [List.head?_append, Option.mem_def.1 hc])
      refine hcolon.resolve_right ?_
      rintro rfl
      exact hbehind (List.mem_of_mem_head? hc)
    · rw [← List.append_assoc]
      exact Text.splitFirst_append (by simp [hfront, hbehind]) default
  · refine ⟨ending, fun c hc => (hending c hc).resolve_right ?_, .inl ⟨?_, rfl⟩⟩
    · rintro rfl
      exact hequals (List.mem_of_mem_head? hc)
    · exact Text.splitFirst_eq_none (by simp [hfront, hequals])

theorem takeWhile_colon {front behind : Text} (hfront : ':' ∉ front)
    (hbehind : ∀ c ∈ behind.head?, c = ':') : (front ++ behind).takeWhile (· ≠ ':') = front := by
  have hpos : ∀ c ∈ front, decide (c ≠ ':') = true := fun c hc => by
    rw [decide_eq_true_iff]
    rintro rfl
    exact hfront hc
  rw [List.takeWhile_append_of_pos hpos]
  cases behind with
  | nil => simp
  | cons c behind => simp [hbehind c rfl]

theorem Formal.exists_parameter? (formal : Formal) {raw lead gap ending : Text}
    (htrim : Text.trim raw = formal.spaced lead gap ++ ending)
    (hlead : ∀ c ∈ lead, Text.isBlank c = true) (hgap : ∀ c ∈ gap, Text.isBlank c = true)
    (hending : ∀ c ∈ ending.head?, c = ':' ∨ c = '=') (glyphs : List Glyph) {isFirst : Bool}
    (start : Nat) (hself : ¬ (isFirst = true ∧ Text.trim raw = "self".toList)) :
    ∃ declaration, parameter? glyphs isFirst start raw = some declaration ∧
      formal.ReadsAs declaration := by
  have hself : (isFirst && decide (formal.spaced lead gap ++ ending = "self".toList)) = false := by
    rw [Bool.and_eq_false_imp, decide_eq_false_iff_not, ← htrim]
    exact fun hfirst heq => hself ⟨hfirst, heq⟩
  have hnonempty : (formal.spaced lead gap ++ ending).isEmpty = false := by
    simp [spaced, formal.name.ne_nil]
  obtain ⟨behind, hbehind, hsplit⟩ := exists_splitFirst
    (formal.not_mem_spaced hlead hgap (c := '=') (by decide) (by decide) (by decide)) hending
  have hcolon := takeWhile_colon
    (formal.not_mem_spaced hlead hgap (c := ':') (by decide) (by decide) (by decide)) hbehind
  rcases hsplit with ⟨hsplit, rfl⟩ | ⟨default, hsplit⟩
  all_goals
    simp only [parameter?, htrim, hnonempty, hself, formal.spaced_ne (c := '*') (by decide),
      formal.spaced_ne (c := '/') (by decide), formal.starsOf_spaced hlead, hsplit, hcolon,
      formal.trim_spaced hlead hgap, List.isEmpty_eq_false_iff.2 formal.name.ne_nil, decide_false,
      Bool.or_false, Bool.false_eq_true, if_false]
    exact ⟨_, rfl, rfl, rfl, rfl⟩

theorem Declaring.forall₂_parameter? {raw : Text} {formal? : Option Formal}
    (h : Declaring (Text.trim raw) formal?) (glyphs : List Glyph) (isFirst : Bool) (start : Nat) :
    List.Forall₂ Formal.ReadsAs
      (if isFirst = true ∧ Text.trim raw = "self".toList then [] else formal?.toList)
      (parameter? glyphs isFirst start raw).toList := by
  by_cases hself : isFirst = true ∧ Text.trim raw = "self".toList
  · rw [if_pos hself, parameter?, hself.1, hself.2]
    exact .nil
  rw [if_neg hself]
  generalize htrim : Text.trim raw = trimmed at h
  cases h with
  | nothing | star | slash =>
    rw [parameter?, htrim]
    exact .nil
  | formal formal lead gap ending ht hlead hgap hending =>
    subst ht
    rw [List.all_eq_true] at hlead hgap
    simp only [Option.all_eq_true, Bool.or_eq_true, decide_eq_true_iff] at hending
    obtain ⟨declaration, hdeclaration, hreadsAs⟩ :=
      formal.exists_parameter? htrim hlead hgap hending glyphs start hself
    rw [hdeclaration]
    exact .cons hreadsAs .nil

/-- Parameters as they are written between brackets. -/
def writtenPieces (pieces : List Piece) : Text :=
  Text.join [','] (pieces.map Piece.raw)

theorem forall₂_pieces (glyphs : List Glyph) (isFirst : Bool) (index : Nat) (first : Piece)
    (rest : List Piece) :
    List.Forall₂ Formal.ReadsAs
      ((if isFirst = true ∧ Text.trim first.raw = "self".toList then [] else
        first.formal?.toList) ++ rest.flatMap (·.formal?.toList))
      (declarations glyphs isFirst (parameters index 0 none (writtenPieces (first :: rest)))) := by
  induction rest generalizing isFirst index first with
  | nil =>
    show List.Forall₂ _ _ (declarations glyphs isFirst (parameters index 0 none first.raw))
    rw [parameters_whole first.isWhole]
    exact List.rel_append (first.declaring.forall₂_parameter? glyphs isFirst index) .nil
  | cons second rest ih =>
    have hwritten : writtenPieces (first :: second :: rest) =
        first.raw ++ ',' :: writtenPieces (second :: rest) := by
      simp [writtenPieces, Text.join]
    have hrest := ih false (index + first.raw.length + 1) second
    rw [if_neg fun h => Bool.false_ne_true h.1] at hrest
    rw [hwritten, parameters_append first.isWhole]
    exact List.rel_append (first.declaring.forall₂_parameter? glyphs isFirst index) hrest

theorem forall₂_formalsOf (glyphs : List Glyph) (index : Nat) (pieces : List Piece) :
    List.Forall₂ Formal.ReadsAs (formalsOf pieces)
      (declarations glyphs true (parameters index 0 none (writtenPieces pieces))) := by
  cases pieces with
  | nil => exact .nil
  | cons first rest => simpa [formalsOf] using forall₂_pieces glyphs true index first rest

/-- A function at the top level: its name, what stands between the brackets and behind the colon,
and the lines below. -/
structure FunctionDef where
  name : Word
  pieces : List Piece
  behind : Text
  body : List Text
  all_isDeeper : body.all (isDeeper 0) = true

namespace FunctionDef

variable (function : FunctionDef)

def line : Text :=
  "def ".toList ++ function.name.text ++
    '(' :: (writtenPieces function.pieces ++ ')' :: ':' :: function.behind)

def lines : List Text :=
  function.line :: function.body

/-- Names that start with an underscore are private. -/
def isPublic : Bool :=
  function.name.text.head? ≠ some '_'

/-- The line of the function leaves no bracket open, those in strings and comments counted. -/
def IsClosed : Prop :=
  depthBehind 0 function.line = 0

instance : Decidable function.IsClosed :=
  inferInstanceAs (Decidable (depthBehind 0 function.line = 0))

end FunctionDef

/-- The keyword is that of the function, whose line has the given number. Each parameter is read if
the brackets among the parameters pair up, those in strings counted. -/
structure FunctionDef.ReadsAs (moduleName : Text) (number : Nat) (function : FunctionDef)
    (keyword : UserKeyword) : Prop where
  qualifier : keyword.id.qualifier = if moduleName = [] then none else some moduleName
  name : keyword.id.name = function.name.text
  location : keyword.location = .parsed (.onLine number 0 function.line.length)
  arguments : ∃ setting, keyword.arguments = some setting ∧
    (pairsUp 0 (writtenPieces function.pieces) = true →
      List.Forall₂ Formal.ReadsAs (formalsOf function.pieces) setting.values)

namespace FunctionDef

variable (function : FunctionDef)

theorem isPrivate_name : Text.startsWith ['_'] function.name.text = !function.isPublic := by
  rw [isPublic, Text.startsWith_singleton, decide_not, Bool.not_not]

theorem inert_front : Inert ("def ".toList ++ function.name.text) :=
  (by decide : Inert "def ".toList).append function.name.inert

theorem mem_line : '(' ∈ function.line := by
  simp [line]

/-- A line is closed if the brackets between its own ones pair up, no hash sign stands among them
and nothing is opened behind the colon. -/
theorem isClosed_of_pairsUp (hpairs : pairsUp 0 (writtenPieces function.pieces) = true)
    (hhash : '#' ∉ writtenPieces function.pieces)
    (hbehind : ∀ c ∈ function.behind, isOpening c = false) : function.IsClosed := by
  rw [IsClosed, line, function.inert_front.flat.depthBehind_append]
  show depthBehind 1 _ = 0
  rw [depthBehind_append hpairs hhash]
  exact depthBehind_zero (List.forall_mem_cons.2 ⟨rfl, hbehind⟩)

/-- The parameters of a closed line are closed too, and by the bracket that is written behind
them if no other one comes first. -/
theorem exists_closed (h : function.IsClosed) (index : Nat) : ∃ closed,
    closing? 1 index (writtenPieces function.pieces ++ ')' :: ':' :: function.behind) =
      some closed ∧
    (pairsUp 0 (writtenPieces function.pieces) = true →
      closed = index + (writtenPieces function.pieces).length) := by
  rw [IsClosed, line, function.inert_front.flat.depthBehind_append] at h
  obtain ⟨closed, hclosed⟩ := exists_closing? Nat.one_pos h index
  refine ⟨closed, hclosed, fun hpairs => ?_⟩
  rw [closing?_append hpairs] at hclosed
  exact (Option.some.inj hclosed).symm

theorem forall₂_keyword? (h : function.IsClosed) (moduleName : Text) (number : Nat)
    {glyphs : List Glyph} (htext : glyphs.map Glyph.char = function.line) :
    List.Forall₂ (ReadsAs moduleName number) (if function.isPublic then [function] else [])
      (keyword? moduleName number function.line glyphs).toList := by
  have hd : 'd' ∉ ([] : Text) := List.not_mem_nil
  obtain ⟨closed, hclosed, hpairs⟩ :=
    function.exists_closed h (([] : Text).length + 4 + function.name.text.length + 1)
  rw [keyword?_eq hd function.name.ne_nil function.name.trim_text
    (function.name.not_mem (by decide)) htext hclosed, function.isPrivate_name]
  cases hpublic : function.isPublic with
  | false => exact .nil
  | true =>
    rw [Definition.declared_eq]
    refine .cons ⟨rfl, rfl, rfl, _, rfl, fun h => ?_⟩ .nil
    rw [hpairs h, Nat.add_sub_cancel_left, List.take_left]
    exact forall₂_formalsOf glyphs _ function.pieces

section

variable (moduleName : Text) (number : Nat)

theorem keywords_line (rest : List Text) :
    keywords moduleName .outside number (function.line :: rest) =
      (keyword? moduleName number function.line
        (signature number ⟨0, false⟩ (function.line :: rest)).1).toList ++
      keywords moduleName .outside
        (number + (signature number ⟨0, false⟩ (function.line :: rest)).2)
        (rest.drop ((signature number ⟨0, false⟩ (function.line :: rest)).2 - 1)) := by
  have htrim : Text.trimStart function.line = function.line := rfl
  rw [keywords, htrim]
  rfl

theorem exists_found (h : function.IsClosed) (rest : List Text) :
    ∃ found, keywords moduleName .outside number (function.line :: rest) =
        found ++ keywords moduleName .outside (number + 1) rest ∧
      List.Forall₂ (ReadsAs moduleName number) (if function.isPublic then [function] else [])
        found := by
  have hsignature := signature_closed rfl function.mem_line h number rest
  have htext : (glyphsOf number 0 ⟨0, false⟩ function.line).1.map Glyph.char = function.line :=
    map_char_glyphsOf number 0 h
  refine ⟨_, ?_, function.forall₂_keyword? h moduleName number htext⟩
  rw [keywords_line, hsignature]
  rfl

/-- A function whose line is not closed takes the lines below it that leave its bracket open. -/
theorem length_keywords_open (h : ¬ function.IsClosed) {rest : List Text}
    (hrest : ∀ line ∈ rest,
      depthBehind (depthBehind 0 function.line) line = depthBehind 0 function.line) :
    (keywords moduleName .outside number (function.line :: rest)).length ≤ 1 := by
  have hcount := count_signature_open h hrest number
  rw [keywords_line, hcount, Nat.add_sub_cancel, List.drop_length, keywords, List.append_nil]
  cases keyword? moduleName number function.line
      (signature number ⟨0, false⟩ (function.line :: rest)).1 <;> simp

end

def bare : FunctionDef :=
  ⟨⟨['f'], by decide, by decide⟩, [], [], [], rfl⟩

theorem depthBehind_bare {depth : Nat} (h : depth ≠ 0) : depthBehind depth bare.line = depth := by
  obtain ⟨depth, rfl⟩ := Nat.exists_eq_succ_of_ne_zero h
  rfl

theorem length_keywords_bare (moduleName : Text) (number : Nat) (rest : List Text) :
    (keywords moduleName .outside number (bare.line :: rest)).length =
      (keywords moduleName .outside (number + 1) rest).length + 1 := by
  obtain ⟨found, hkeywords, hfound⟩ := bare.exists_found moduleName number (by decide) rest
  rw [hkeywords, List.length_append, ← hfound.length_eq, Nat.add_comm]
  rfl

/-- A function is read from its own line alone, whatever stands below it, exactly if this line is
closed. -/
theorem isClosed_iff (moduleName : Text) : function.IsClosed ↔ ∀ number rest,
    ∃ found, keywords moduleName .outside number (function.line :: rest) =
        found ++ keywords moduleName .outside (number + 1) rest ∧
      List.Forall₂ (ReadsAs moduleName number) (if function.isPublic then [function] else [])
        found := by
  refine ⟨fun h number rest => function.exists_found moduleName number h rest, fun h => ?_⟩
  by_contra hopen
  obtain ⟨found, hkeywords, -⟩ := h 0 [bare.line, bare.line]
  have hlines : ∀ line ∈ [bare.line, bare.line],
      depthBehind (depthBehind 0 function.line) line = depthBehind 0 function.line := by
    simp only [List.forall_mem_cons, List.not_mem_nil, false_imp_iff, implies_true, and_true]
    exact ⟨depthBehind_bare hopen, depthBehind_bare hopen⟩
  -- Of two functions below it none is left over, though each of them is a keyword.
  have htaken := function.length_keywords_open moduleName 0 hopen hlines
  rw [hkeywords, List.length_append, length_keywords_bare, length_keywords_bare] at htaken
  omega

end FunctionDef

/-- Functions, each with the number of its line; the line of the first one is `number`. -/
def placedFunctions (number : Nat) : List FunctionDef → List (Nat × FunctionDef)
  | [] => []
  | function :: rest => (number, function) :: placedFunctions (number + function.lines.length) rest

theorem forall₂_functions (moduleName : Text) (number : Nat) {functions : List FunctionDef}
    (h : ∀ function ∈ functions, function.IsClosed) :
    List.Forall₂ (fun placed keyword => placed.2.ReadsAs moduleName placed.1 keyword)
      ((placedFunctions number functions).filter (·.2.isPublic))
      (keywords moduleName .outside number (functions.flatMap FunctionDef.lines)) := by
  induction functions generalizing number with
  | nil =>
    rw [List.flatMap_nil, keywords]
    exact .nil
  | cons function functions ih =>
    obtain ⟨hclosed, hrest⟩ := List.forall_mem_cons.1 h
    obtain ⟨found, hkeywords, hfound⟩ := function.exists_found moduleName number hclosed
      (function.body ++ functions.flatMap FunctionDef.lines)
    have hbody := keywords_body moduleName (number + 1) passes_function function.all_isDeeper
      (functions.flatMap FunctionDef.lines)
    have hbelow := ih (number + function.lines.length) hrest
    rw [FunctionDef.lines, List.length_cons, Nat.add_comm _ 1, ← Nat.add_assoc] at hbelow
    rw [List.flatMap_cons, FunctionDef.lines, List.cons_append, hkeywords]
    change List.Forall₂ _ _ (found ++ keywords moduleName ⟨false, none⟩ _ _)
    rw [hbody, placedFunctions, FunctionDef.lines, List.length_cons, Nat.add_comm _ 1,
      ← Nat.add_assoc, ← List.singleton_append, List.filter_append]
    refine List.rel_append ?_ hbelow
    rw [List.filter_singleton]
    cases hpublic : function.isPublic with
    | false => simpa [hpublic] using hfound
    | true => simpa [hpublic, List.forall₂_cons_left_iff] using hfound

/-- A function leaves the lines below it alone exactly if its own line is closed, as it is where the
brackets among its parameters pair up without a hash sign and none is opened behind the colon. If
the lines of all functions of a source are closed, its keywords are the public functions in their
order, each with its parameters if the brackets among these pair up. -/
theorem read_closed_functions (moduleName : Text) {text : Text} {functions : List FunctionDef}
    (h : Text.feedLines text = functions.flatMap FunctionDef.lines) :
    (∀ function ∈ functions,
      (function.IsClosed ↔ ∀ number rest,
        ∃ found, keywords moduleName .outside number (function.line :: rest) =
            found ++ keywords moduleName .outside (number + 1) rest ∧
          List.Forall₂ (FunctionDef.ReadsAs moduleName number)
            (if function.isPublic then [function] else []) found) ∧
      (pairsUp 0 (writtenPieces function.pieces) = true → '#' ∉ writtenPieces function.pieces →
        (∀ c ∈ function.behind, isOpening c = false) → function.IsClosed)) ∧
    ((∀ function ∈ functions, function.IsClosed) →
      ∃ table, (read moduleName text).keywords? = some table ∧
        List.Forall₂ (fun placed keyword => placed.2.ReadsAs moduleName placed.1 keyword)
          ((placedFunctions 0 functions).filter (·.2.isPublic)) table.keywords) := by
  refine ⟨fun function _ => ⟨function.isClosed_iff moduleName, function.isClosed_of_pairsUp⟩,
    fun hclosed => ⟨_, rfl, ?_⟩⟩
  show List.Forall₂ _ _ (keywords moduleName .outside 0 (Text.feedLines text))
  rw [h]
  exact forall₂_functions moduleName 0 hclosed

/-- A method-like function with a comma and brackets in a string and more of them in a comment. -/
def copyFunction : FunctionDef where
  name := ⟨"copy".toList, by decide, by decide⟩
  pieces := [
    { raw := "self".toList
      isWhole := by decide
      formal? := some (.plain ⟨"self".toList, by decide, by decide⟩)
      declaring := .formal _ [] [] [] (by decide) (by decide) (by decide) (by decide) },
    { raw := " marks='(,)'".toList
      isWhole := by decide
      formal? := some (.plain ⟨"marks".toList, by decide, by decide⟩)
      declaring := .formal _ [] [] "='(,)'".toList (by decide) (by decide) (by decide)
        (by decide) },
    { raw := " * rest : int".toList
      isWhole := by decide
      formal? := some (.list ⟨"rest".toList, by decide, by decide⟩)
      declaring := .formal _ [' '] [' '] ": int".toList (by decide) (by decide) (by decide)
        (by decide) }]
  behind := " # (and others)".toList
  body := ["    return (".toList, []]
  all_isDeeper := by decide

def closeFunction : FunctionDef where
  name := ⟨"_close".toList, by decide, by decide⟩
  pieces := []
  behind := []
  body := []
  all_isDeeper := by decide

/-- The source of both functions and a third one. -/
def copySource : Text :=
  Text.join ['\n'] (["def copy(self, marks='(,)', * rest : int): # (and others)",
    "    return (", "", "def _close():", "def f():"].map String.toList)

/-- Brackets in a string and in a comment do no harm where each of them is closed. -/
theorem read_closed_functions_copy :
    Text.feedLines copySource =
        [copyFunction, closeFunction, FunctionDef.bare].flatMap FunctionDef.lines ∧
      (∀ function ∈ [copyFunction, closeFunction, FunctionDef.bare], function.IsClosed) ∧
      pairsUp 0 (writtenPieces copyFunction.pieces) = true ∧
      ((formalsOf copyFunction.pieces).map fun formal => (formal.kind, formal.name.text)) =
        [(.scalar, "marks".toList), (.list, "rest".toList)] ∧
      ∃ table, (read "m".toList copySource).keywords? = some table ∧
        List.Forall₂ (fun placed keyword => placed.2.ReadsAs "m".toList placed.1 keyword)
          [(0, copyFunction), (4, FunctionDef.bare)] table.keywords := by
  have hlines : Text.feedLines copySource =
      [copyFunction, closeFunction, FunctionDef.bare].flatMap FunctionDef.lines := by
    decide +kernel
  have hclosed : ∀ function ∈ [copyFunction, closeFunction, FunctionDef.bare],
      function.IsClosed := by
    decide +kernel
  exact ⟨hlines, hclosed, by decide +kernel, by decide +kernel,
    (read_closed_functions "m".toList hlines).2 hclosed⟩

/-- A function with a hash sign in a string. -/
def hashFunction : FunctionDef where
  name := ⟨['f'], by decide, by decide⟩
  pieces := [
    { raw := "a='#'".toList
      isWhole := by decide
      formal? := some (.plain ⟨['a'], by decide, by decide⟩)
      declaring := .formal _ [] [] "='#'".toList (by decide) (by decide) (by decide)
        (by decide) }]
  behind := []
  body := []
  all_isDeeper := by decide

/-- The hash sign takes the closing bracket of its own line away, and the function below with it:
neither of the two is a keyword. -/
theorem keywords_hash_eq_nil :
    Text.feedLines "def f(a='#'):\ndef f():".toList =
        [hashFunction, FunctionDef.bare].flatMap FunctionDef.lines ∧
      hashFunction.isPublic = true ∧ FunctionDef.bare.isPublic = true ∧
      ∃ table, (read "m".toList "def f(a='#'):\ndef f():".toList).keywords? = some table ∧
        table.keywords = [] := by
  have hlines : Text.feedLines "def f(a='#'):\ndef f():".toList =
      [hashFunction, FunctionDef.bare].flatMap FunctionDef.lines := by
    decide +kernel
  refine ⟨hlines, by decide, by decide, _, rfl, ?_⟩
  have hcount : (signature 0 ⟨0, false⟩ [hashFunction.line, FunctionDef.bare.line]).2 = 2 :=
    count_signature_open (by decide) (by decide) 0
  have hkeyword : keyword? "m".toList 0 hashFunction.line
      (signature 0 ⟨0, false⟩ [hashFunction.line, FunctionDef.bare.line]).1 = none := by
    cbv
  show keywords "m".toList .outside 0 (Text.feedLines "def f(a='#'):\ndef f():".toList) = []
  rw [hlines]
  show keywords "m".toList .outside 0 (hashFunction.line :: [FunctionDef.bare.line]) = []
  rw [hashFunction.keywords_line, hcount, hkeyword, Nat.add_sub_cancel 1 1, List.drop_one,
    List.tail_cons, keywords]
  rfl

end SuiteIndex.Script
