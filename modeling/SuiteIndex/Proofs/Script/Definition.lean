import SuiteIndex.Proofs.Script.Brackets
import SuiteIndex.Proofs.Script.Keyword
import SuiteIndex.Proofs.Suite.Tiling

/-! # Definitions on one line

A definition in plain form is written on one line: a name, and between brackets parameters
that are plain names, names with a default, or names behind one star or two. The keyword
that is read from it has the same name and the same parameters, and each of them is located
where it is written.
-/

namespace SuiteIndex.Script

/-- ASCII letters, digits and underscores. -/
def isNameChar (c : Char) : Bool :=
  c.isAlphanum || c = '_'

def isName : Text → Bool
  | [] => false
  | c :: t => !c.isDigit && (c :: t).all isNameChar

/-- The characters that structure a signature: brackets, quotes, the comma and the hash sign. -/
def marks : List Char :=
  ['(', '[', '\x7b', ')', ']', '\x7d', '\x27', '\x22', ',', '#']

/-- Nothing in the text structures a signature. -/
def Inert (t : Text) : Prop :=
  ∀ c ∈ t, c ∉ marks

instance (t : Text) : Decidable (Inert t) :=
  decidable_of_iff (t.all (!marks.contains ·) = true) (by simp [Inert])

theorem Inert.append {s t : Text} (hs : Inert s) (ht : Inert t) : Inert (s ++ t) :=
  fun c hc => (List.mem_append.1 hc).elim (hs c) (ht c)

theorem inert_of_forall {p : Char → Bool} (hmarks : marks.all (!p ·) = true) {t : Text}
    (h : ∀ c ∈ t, p c = true) : Inert t := by
  intro c hc hmark
  have hnot := List.all_eq_true.1 hmarks c hmark
  rw [h c hc] at hnot
  cases hnot

theorem inert_of_blank {t : Text} (h : ∀ c ∈ t, Text.isBlank c = true) : Inert t :=
  inert_of_forall (by decide) h

theorem ne_of_not_mem_marks {c d : Char} (h : c ∉ marks) (hd : d ∈ marks) : c ≠ d :=
  fun heq => h (heq ▸ hd)

theorem isOpening_eq_false {c : Char} (h : c ∉ marks) : isOpening c = false := by
  have hne {d : Char} (hd : d ∈ marks) : c ≠ d := ne_of_not_mem_marks h hd
  simp [isOpening, hne (d := '(') (by decide), hne (d := '[') (by decide),
    hne (d := '\x7b') (by decide)]

theorem isClosing_eq_false {c : Char} (h : c ∉ marks) : isClosing c = false := by
  have hne {d : Char} (hd : d ∈ marks) : c ≠ d := ne_of_not_mem_marks h hd
  simp [isClosing, hne (d := ')') (by decide), hne (d := ']') (by decide),
    hne (d := '\x7d') (by decide)]

theorem depthAfter_eq_self {c : Char} (h : c ∉ marks) (depth : Nat) :
    depthAfter depth c = depth := by
  simp [depthAfter, isOpening_eq_false h, isClosing_eq_false h]

theorem toNat_between {c low high : Char} (h : c.val ≥ low.val ∧ c.val ≤ high.val) :
    low.toNat ≤ c.toNat ∧ c.toNat ≤ high.toNat :=
  ⟨UInt32.le_iff_toNat_le.1 h.1, UInt32.le_iff_toNat_le.1 h.2⟩

theorem toNat_of_isNameChar {c : Char} (h : isNameChar c = true) :
    48 ≤ c.toNat ∧ c.toNat ≤ 122 := by
  change (((c.isUpper || c.isLower) || c.isDigit) || c == '_') = true at h
  simp only [Bool.or_eq_true, beq_iff_eq] at h
  rcases h with ((hupper | hlower) | hdigit) | rfl
  · have hrange : 65 ≤ c.toNat ∧ c.toNat ≤ 90 := toNat_between (of_decide_eq_true hupper)
    omega
  · have hboth := Bool.and_eq_true_iff.1 hlower
    have hrange : 97 ≤ c.toNat ∧ c.toNat ≤ 122 :=
      toNat_between ⟨of_decide_eq_true hboth.1, of_decide_eq_true hboth.2⟩
    omega
  · have hboth := Bool.and_eq_true_iff.1 hdigit
    have hrange : 48 ≤ c.toNat ∧ c.toNat ≤ 57 :=
      toNat_between ⟨of_decide_eq_true hboth.1, of_decide_eq_true hboth.2⟩
    omega
  · decide

theorem isBlank_of_isNameChar {c : Char} (h : isNameChar c = true) : Text.isBlank c = false := by
  obtain ⟨hlow, hhigh⟩ := toNat_of_isNameChar h
  simp only [Text.isBlank, Bool.or_eq_false_iff, Bool.and_eq_false_iff, decide_eq_false_iff_not,
    beq_eq_false_iff_ne]
  omega

/-- A name of a function, a class or a parameter. -/
structure Name where
  text : Text
  isName : Script.isName text = true

namespace Name

variable (name : Name)

theorem isNameChar_of_mem {c : Char} (h : c ∈ name.text) : isNameChar c = true := by
  obtain ⟨t, ht⟩ := name
  cases t with
  | nil => cases h
  | cons d t =>
    rw [Script.isName, Bool.and_eq_true] at ht
    exact List.all_eq_true.1 ht.2 c h

theorem ne_nil : name.text ≠ [] := by
  intro h
  have hname := name.isName
  rw [h] at hname
  cases hname

theorem isBlank_of_mem {c : Char} (h : c ∈ name.text) : Text.isBlank c = false :=
  isBlank_of_isNameChar (name.isNameChar_of_mem h)

theorem trim_text : Text.trim name.text = name.text :=
  Text.trim_eq_self_of_forall fun _ => name.isBlank_of_mem

theorem indentation_text : Text.indentation name.text = 0 :=
  Text.indentation_eq_zero fun _ hc => name.isBlank_of_mem (List.mem_of_mem_head? hc)

theorem inert : Inert name.text :=
  inert_of_forall (by decide) fun _ => name.isNameChar_of_mem

theorem not_mem {c : Char} (hc : isNameChar c = false) : c ∉ name.text := by
  intro h
  rw [name.isNameChar_of_mem h] at hc
  cases hc

end Name

/-- The text of a default value: trimmed, and with nothing in it that structures a signature. -/
structure Default where
  text : Text
  ne_nil : text ≠ []
  trimmed : Text.trim text = text
  inert : Inert text

theorem Default.indentation_text (default : Default) : Text.indentation default.text = 0 := by
  refine Text.indentation_eq_zero fun c hc => ?_
  rw [← default.trimmed] at hc
  exact Text.isBlank_head_trim hc

theorem ofCell_of_inert {cell : Cell} (h : Inert cell.content) :
    Expression.ofCell cell = .literal (.ofCell cell) := by
  have hnone : ¬ Token.Mentions cell.content := by
    rintro ⟨_, ⟨hsigil, hne, hname⟩, hpart⟩
    exact h '\x7b' (hpart.subset (by simp)) (by decide)
  rcases Expression.ofCell_cases cell with ⟨-, heq⟩ | ⟨_, hreference, -⟩ | ⟨hmentions, -⟩
  · exact heq
  · exact absurd hreference.mentions hnone
  · exact absurd hmentions hnone

/-- A parameter in plain form. -/
inductive Parameter where
  | plain (name : Name)
  | preset (name : Name) (default : Default)
  | list (name : Name)
  | dictionary (name : Name)

namespace Parameter

def name : Parameter → Name
  | plain name | preset name _ | list name | dictionary name => name

def kind : Parameter → VariableKind
  | plain _ | preset _ _ => .scalar
  | list _ => .list
  | dictionary _ => .dictionary

def default? : Parameter → Option Default
  | preset _ default => some default
  | _ => none

def stars : Parameter → Text
  | plain _ | preset _ _ => []
  | list _ => ['*']
  | dictionary _ => ['*', '*']

def head (parameter : Parameter) : Text :=
  parameter.stars ++ parameter.name.text

def ending (parameter : Parameter) : Text :=
  match parameter.default? with
  | some default => '=' :: default.text
  | none => []

def written (parameter : Parameter) : Text :=
  parameter.head ++ parameter.ending

end Parameter

/-- The location is one of the places where the text stands in the line. -/
def Selects (number : Nat) (line : Text) (location : Location) (t : Text) : Prop :=
  ∃ front behind, line = front ++ t ++ behind ∧
    location = .parsed (.onLine number front.length (front.length + t.length))

/-- The declaration is that of the parameter, which is written in the line. -/
structure Parameter.ReadsAs (number : Nat) (line : Text) (parameter : Parameter)
    (declaration : Declaration) : Prop where
  qualifier : declaration.id.qualifier = none
  name : declaration.id.name = parameter.name.text
  kind : declaration.kind = parameter.kind
  values : List.Forall₂ (fun default value => ∃ place,
    value = .literal ⟨default.text, place⟩ ∧ Selects number line place default.text)
    parameter.default?.toList declaration.values
  name_location : Selects number line declaration.id.location parameter.name.text
  location : Selects number line declaration.location parameter.written

/-- The characters are those of the line, each in its column. -/
def OnLine (number : Nat) (t : Text) (glyphs : List Glyph) : Prop :=
  ∀ i : Nat, glyphs[i]? = t[i]?.map fun c => Glyph.mk c ⟨number, i⟩

theorem getElem?_glyphsOf {t : Text} (h : '#' ∉ t) (number column : Nat) (progress : Progress)
    (i : Nat) : (glyphsOf number column progress t).1[i]? =
      t[i]?.map fun c => Glyph.mk c ⟨number, column + i⟩ := by
  induction t generalizing column progress i with
  | nil => simp [glyphsOf]
  | cons c t ih =>
    rw [List.mem_cons, not_or] at h
    have hc : ¬ (c = '#' && decide (0 < progress.depth)) = true := by simp [Ne.symm h.1]
    simp only [glyphsOf, hc, Bool.false_eq_true, if_false]
    cases i with
    | zero => rfl
    | succ i =>
      rw [List.getElem?_cons_succ, List.getElem?_cons_succ, ih h.2]
      congr 2
      funext c
      rw [Nat.add_assoc, Nat.add_comm 1]

theorem onLine_glyphsOf {t : Text} (h : '#' ∉ t) (number : Nat) (progress : Progress) :
    OnLine number t (glyphsOf number 0 progress t).1 := by
  intro i
  rw [getElem?_glyphsOf h, Nat.zero_add]

namespace OnLine

variable {number : Nat} {t line : Text} {glyphs : List Glyph}

theorem map_char (h : OnLine number t glyphs) : glyphs.map Glyph.char = t := by
  refine List.ext_getElem? fun i => ?_
  rw [List.getElem?_map, h i, Option.map_map]
  cases t[i]? <;> rfl

theorem selects (h : OnLine number line glyphs) {index : Nat}
    (hreads : Reads glyphs index t) (hne : t ≠ []) :
    Selects number line (.parsed (spanOf glyphs index (index + t.length))) t := by
  have hlength := hreads.le_length
  have hpos := List.length_pos_of_ne_nil hne
  have hposition {i : Nat} (hi : i < glyphs.length) : glyphs[i].position = ⟨number, i⟩ := by
    have hat := h i
    rw [List.getElem?_eq_getElem hi] at hat
    obtain ⟨c, -, hc⟩ := Option.map_eq_some_iff.1 hat.symm
    rw [← hc]
  obtain ⟨front, behind, htext, rfl⟩ := hreads
  refine ⟨front, behind, h.map_char.symm.trans htext, ?_⟩
  rw [spanOf_eq (by omega) (by omega) hlength, Glyph.stop, hposition, hposition]
  have hlast : front.length + t.length - 1 + 1 = front.length + t.length := by omega
  simp only [hlast]
  rfl

end OnLine

namespace Parameter

variable (parameter : Parameter)

theorem inert_head : Inert parameter.head := by
  refine Inert.append ?_ parameter.name.inert
  cases parameter with
  | plain | preset => exact fun c hc => absurd hc List.not_mem_nil
  | list => exact (by decide : Inert ['*'])
  | dictionary => exact (by decide : Inert ['*', '*'])

theorem inert_written : Inert parameter.written := by
  refine parameter.inert_head.append ?_
  rw [ending]
  split
  · rename_i default _
    exact List.forall_mem_cons.2 ⟨by decide, default.inert⟩
  · exact fun c hc => absurd hc List.not_mem_nil

theorem not_mem_head {c : Char} (hstar : c ≠ '*') (hc : isNameChar c = false) :
    c ∉ parameter.head := by
  rw [head, List.mem_append, not_or]
  refine ⟨?_, parameter.name.not_mem hc⟩
  cases parameter <;> simp [stars, hstar]

theorem isBlank_head_append {t : Text} {c : Char} (h : (parameter.head ++ t).head? = some c) :
    Text.isBlank c = false := by
  rw [head, List.append_assoc, List.head?_append] at h
  obtain ⟨d, more, hname⟩ := List.exists_cons_of_ne_nil parameter.name.ne_nil
  have hd := parameter.name.isBlank_of_mem (hname ▸ List.mem_cons_self)
  cases parameter with
  | plain | preset =>
    obtain rfl : d = c := by simpa [stars, hname] using h
    exact hd
  | list | dictionary =>
    obtain rfl : '*' = c := by simpa [stars] using h
    decide

theorem isBlank_getLast_head {c : Char} (h : parameter.head.getLast? = some c) :
    Text.isBlank c = false := by
  rw [head, List.getLast?_append, List.getLast?_eq_some_getLast parameter.name.ne_nil] at h
  obtain rfl : parameter.name.text.getLast _ = c := by simpa using h
  exact parameter.name.isBlank_of_mem (List.getLast_mem _)

theorem isBlank_getLast_written {c : Char} (h : parameter.written.getLast? = some c) :
    Text.isBlank c = false := by
  rw [written, ending] at h
  split at h
  · rename_i default _
    rw [List.getLast?_append, List.getLast?_cons,
      List.getLast?_eq_some_getLast default.ne_nil] at h
    apply Text.isBlank_getLast_trim (t := default.text)
    rw [default.trimmed, List.getLast?_eq_some_getLast default.ne_nil]
    simpa using h
  · rw [List.append_nil] at h
    exact parameter.isBlank_getLast_head h

theorem trim_head : Text.trim parameter.head = parameter.head := by
  refine Text.trim_eq_self (fun c hc => ?_) fun _ => parameter.isBlank_getLast_head
  rw [← List.append_nil parameter.head] at hc
  exact parameter.isBlank_head_append hc

theorem trim_written {lead : Text} (hlead : ∀ c ∈ lead, Text.isBlank c = true) :
    Text.trim (lead ++ parameter.written) = parameter.written := by
  exact Text.trim_append_left hlead (fun _ => parameter.isBlank_head_append)
    fun _ => parameter.isBlank_getLast_written

theorem starsOf_written :
    starsOf parameter.written = (parameter.kind, parameter.stars.length) := by
  obtain ⟨c, t, hname⟩ := List.exists_cons_of_ne_nil parameter.name.ne_nil
  have hc : c ≠ '*' := by
    rintro rfl
    exact parameter.name.not_mem (by decide) (hname ▸ List.mem_cons_self)
  cases parameter with
  | plain | preset | list | dictionary =>
    rw [written, head, hname]
    simp [stars, kind, starsOf, hc]

theorem written_ne_nil : parameter.written ≠ [] := by
  simp [written, head, parameter.name.ne_nil]

theorem written_ne {c : Char} (hc : isNameChar c = false) : parameter.written ≠ [c] := by
  intro h
  obtain ⟨d, t, hname⟩ := List.exists_cons_of_ne_nil parameter.name.ne_nil
  have hd : d ∈ parameter.written := by simp [written, head, hname]
  rw [h, List.mem_singleton] at hd
  exact parameter.name.not_mem hc (hd ▸ hname ▸ List.mem_cons_self)

theorem splitFirst_written : Text.splitFirst '=' parameter.written =
    parameter.default?.map fun default => (parameter.head, default.text) := by
  have hhead : '=' ∉ parameter.head := parameter.not_mem_head (by decide) (by decide)
  rw [written, ending]
  cases parameter.default? with
  | none => rw [List.append_nil, Text.splitFirst_eq_none hhead, Option.map_none]
  | some default => exact Text.splitFirst_append hhead default.text

theorem parameter?_written {lead : Text} (hlead : ∀ c ∈ lead, Text.isBlank c = true)
    (glyphs : List Glyph) {isFirst : Bool} (start : Nat)
    (hself : isFirst = true → parameter.written ≠ "self".toList) :
    let first := start + lead.length
    parameter? glyphs isFirst start (lead ++ parameter.written) = some {
      id := ⟨none, parameter.name.text, .parsed (spanOf glyphs (first + parameter.stars.length)
        (first + parameter.stars.length + parameter.name.text.length))⟩
      kind := parameter.kind
      values := parameter.default?.toList.map fun default =>
        let valueStart := first + parameter.head.length + 1
        .literal ⟨default.text, .parsed (spanOf glyphs valueStart
          (valueStart + default.text.length))⟩
      location := .parsed (spanOf glyphs first (first + parameter.written.length)) } := by
  have hindent : Text.indentation (lead ++ parameter.written) = lead.length :=
    Text.indentation_append hlead fun _ => parameter.isBlank_head_append
  have hself : (isFirst && decide (parameter.written = "self".toList)) = false := by
    rw [Bool.and_eq_false_imp, decide_eq_false_iff_not]
    exact hself
  have hname : Text.trim ((Text.trim (parameter.head.takeWhile (· ≠ ':'))).drop
      parameter.stars.length) = parameter.name.text := by
    have hcolon : parameter.head.takeWhile (· ≠ ':') = parameter.head := by
      refine List.takeWhile_eq_self_iff.2 fun c hc => decide_eq_true ?_
      rintro rfl
      exact parameter.not_mem_head (by decide) (by decide) hc
    rw [hcolon, trim_head, head, List.drop_left, parameter.name.trim_text]
  have hnonempty : parameter.name.text.isEmpty = false :=
    List.isEmpty_eq_false_iff.2 parameter.name.ne_nil
  rw [parameter?, parameter.trim_written hlead, hindent, parameter.starsOf_written,
    parameter.splitFirst_written]
  simp only [List.isEmpty_eq_false_iff.2 parameter.written_ne_nil, hself,
    parameter.written_ne (c := '*') (by decide), parameter.written_ne (c := '/') (by decide),
    decide_false, Bool.or_false, Bool.false_eq_true, if_false]
  cases hdefault : parameter.default? with
  | none =>
    have hwritten : parameter.written = parameter.head := by
      rw [written, ending, hdefault, List.append_nil]
    simp only [Option.map_none, hwritten, hname, hnonempty, Bool.false_eq_true, if_false]
    rfl
  | some default =>
    simp only [Option.map_some, hname, hnonempty, Bool.false_eq_true, if_false]
    simp [default.trimmed, default.indentation_text, ofCell_of_inert, default.inert]
    rfl

theorem readsAs {lead : Text} (hlead : ∀ c ∈ lead, Text.isBlank c = true) {number : Nat}
    {line : Text} {glyphs : List Glyph} (honLine : OnLine number line glyphs) {isFirst : Bool}
    {start : Nat} (hreads : Reads glyphs start (lead ++ parameter.written))
    (hself : isFirst = true → parameter.written ≠ "self".toList) :
    ∃ declaration, parameter? glyphs isFirst start (lead ++ parameter.written) = some declaration ∧
      parameter.ReadsAs number line declaration := by
  have hwritten : Reads glyphs (start + lead.length) parameter.written := hreads.right
  refine ⟨_, parameter.parameter?_written hlead glyphs start hself, rfl, rfl, rfl, ?_, ?_,
    honLine.selects hwritten parameter.written_ne_nil⟩
  · rw [List.forall₂_map_right_iff, List.forall₂_same]
    intro default hdefault
    refine ⟨_, rfl, ?_⟩
    rw [Option.mem_toList] at hdefault
    have hending : parameter.written = parameter.head ++ ['='] ++ default.text := by
      simp [written, ending, hdefault]
    rw [hending] at hwritten
    have hvalue := hwritten.right
    rw [List.length_append, ← Nat.add_assoc] at hvalue
    exact honLine.selects hvalue default.ne_nil
  · exact honLine.selects hwritten.left.right parameter.name.ne_nil

end Parameter

theorem Inert.isWhole {t : Text} (h : Inert t) : isWhole 0 none t = true := by
  induction t with
  | nil => rfl
  | cons c t ih =>
    obtain ⟨hc, ht⟩ := List.forall_mem_cons.1 h
    have hne {d : Char} (hd : d ∈ marks) : c ≠ d := ne_of_not_mem_marks hc hd
    simp [Script.isWhole, depthAfter_eq_self hc, hne (d := ',') (by decide),
      hne (d := '\x27') (by decide), hne (d := '\x22') (by decide), ih ht]

/-- Parameters as they are written between brackets. -/
def listed (parameters : List Parameter) : Text :=
  Text.join [',', ' '] (parameters.map Parameter.written)

/-- All parameters but a first one that is written exactly `self`. -/
def argumentsOf : List Parameter → List Parameter
  | [] => []
  | first :: rest => if first.written = "self".toList then rest else first :: rest

section

variable {number : Nat} {line lead : Text} {glyphs : List Glyph} {index : Nat}

theorem Parameter.parameter?_self {parameter : Parameter}
    (hlead : ∀ c ∈ lead, Text.isBlank c = true) (h : parameter.written = "self".toList) :
    parameter? glyphs true index (lead ++ parameter.written) = none := by
  rw [parameter?, parameter.trim_written hlead, h]
  rfl

theorem Parameter.forall₂_parameter? (parameter : Parameter) (honLine : OnLine number line glyphs)
    (hlead : ∀ c ∈ lead, Text.isBlank c = true) (isFirst : Bool)
    (hreads : Reads glyphs index (lead ++ parameter.written)) :
    List.Forall₂ (ReadsAs number line)
      (if isFirst = true ∧ parameter.written = "self".toList then [] else [parameter])
      (parameter? glyphs isFirst index (lead ++ parameter.written)).toList := by
  by_cases hself : isFirst = true ∧ parameter.written = "self".toList
  · rw [if_pos hself, hself.1, parameter?_self hlead hself.2]
    exact .nil
  · obtain ⟨declaration, hdeclaration, hreadsAs⟩ :=
      parameter.readsAs hlead honLine hreads fun hfirst heq => hself ⟨hfirst, heq⟩
    rw [if_neg hself, hdeclaration]
    exact .cons hreadsAs .nil

theorem forall₂_declarations (honLine : OnLine number line glyphs) (isFirst : Bool)
    (hlead : ∀ c ∈ lead, Text.isBlank c = true) {first : Parameter} {rest : List Parameter}
    (hreads : Reads glyphs index (lead ++ listed (first :: rest))) :
    List.Forall₂ (Parameter.ReadsAs number line)
      ((if isFirst = true ∧ first.written = "self".toList then [] else [first]) ++ rest)
      (declarations glyphs isFirst (parameters index 0 none (lead ++ listed (first :: rest)))) := by
  have hinert : Inert (lead ++ first.written) := (inert_of_blank hlead).append first.inert_written
  induction rest generalizing isFirst lead index first with
  | nil =>
    have hlisted : listed [first] = first.written := rfl
    rw [hlisted] at hreads ⊢
    rw [parameters_whole hinert.isWhole]
    exact List.rel_append (first.forall₂_parameter? honLine hlead isFirst hreads) .nil
  | cons second rest ih =>
    have hlisted : lead ++ listed (first :: second :: rest) =
        (lead ++ first.written) ++ ',' :: ([' '] ++ listed (second :: rest)) := by
      simp [listed, Text.join]
    have hspace : ∀ c ∈ [' '], Text.isBlank c = true := List.forall_mem_singleton.2 rfl
    rw [hlisted] at hreads ⊢
    rw [parameters_append hinert.isWhole]
    have hhead : Reads glyphs index (lead ++ first.written) := hreads.left
    have hrest : Reads glyphs (index + (lead ++ first.written).length + 1)
        ([' '] ++ listed (second :: rest)) := by
      rw [List.append_cons] at hreads
      have hbehind := hreads.right
      rwa [List.length_append, List.length_singleton, ← Nat.add_assoc] at hbehind
    have hbehind := ih false hspace hrest ((inert_of_blank hspace).append second.inert_written)
    rw [if_neg (fun h => Bool.false_ne_true h.1)] at hbehind
    exact List.rel_append (first.forall₂_parameter? honLine hlead isFirst hhead) hbehind

theorem forall₂_arguments (honLine : OnLine number line glyphs) (parameters : List Parameter)
    (hreads : Reads glyphs index (listed parameters)) :
    List.Forall₂ (Parameter.ReadsAs number line) (argumentsOf parameters)
      (declarations glyphs true (Script.parameters index 0 none (listed parameters))) := by
  cases parameters with
  | nil => exact .nil
  | cons first rest =>
    have hnil : ∀ c ∈ ([] : Text), Text.isBlank c = true := by simp
    have hall := forall₂_declarations honLine true hnil hreads
    rw [argumentsOf]
    by_cases hself : first.written = "self".toList
    · rw [if_pos ⟨rfl, hself⟩] at hall
      rw [if_pos hself]
      exact hall
    · rw [if_neg fun h => hself h.2] at hall
      rw [if_neg hself]
      exact hall

end

/-- A definition in plain form. -/
structure Definition where
  isAsync : Bool
  name : Name
  parameters : List Parameter

namespace Definition

def opening (definition : Definition) : Text :=
  (if definition.isAsync then "async ".toList else []) ++ "def ".toList

def written (definition : Definition) : Text :=
  definition.opening ++ definition.name.text ++ '(' :: listed definition.parameters ++ "):".toList

/-- Names that start with an underscore are private. -/
def isPublic (definition : Definition) : Bool :=
  definition.name.text.head? ≠ some '_'

end Definition

/-- The keyword is that of the definition, which is written in the line. -/
structure Definition.ReadsAs (moduleName : Text) (number : Nat) (line : Text)
    (definition : Definition) (keyword : UserKeyword) : Prop where
  qualifier : keyword.id.qualifier = if moduleName = [] then none else some moduleName
  name : keyword.id.name = definition.name.text
  name_location : Selects number line keyword.id.location definition.name.text
  location : keyword.location = .parsed (.onLine number 0 line.length)
  arguments : ∃ setting, keyword.arguments = some setting ∧
    List.Forall₂ (Parameter.ReadsAs number line) (argumentsOf definition.parameters) setting.values

/-- There are no brackets in the text, and it starts no comment. -/
def Flat (t : Text) : Prop :=
  ∀ c ∈ t, isOpening c = false ∧ isClosing c = false ∧ c ≠ '#'

theorem Inert.flat {t : Text} (h : Inert t) : Flat t :=
  fun c hc => ⟨isOpening_eq_false (h c hc), isClosing_eq_false (h c hc),
    ne_of_not_mem_marks (h c hc) (by decide)⟩

theorem flat_listed (parameters : List Parameter) : Flat (listed parameters) := by
  induction parameters with
  | nil => exact fun c hc => absurd hc List.not_mem_nil
  | cons first rest ih =>
    cases rest with
    | nil => exact first.inert_written.flat
    | cons second rest =>
      have hcomma : Flat [',', ' '] := by
        intro c hc
        rcases List.mem_cons.1 hc with rfl | hc
        · decide
        · obtain rfl := List.mem_singleton.1 hc
          decide
      intro c hc
      have hlisted : listed (first :: second :: rest) =
          first.written ++ [',', ' '] ++ listed (second :: rest) := by
        simp [listed, Text.join]
      rw [hlisted, List.mem_append, List.mem_append] at hc
      rcases hc with (hc | hc) | hc
      · exact first.inert_written.flat c hc
      · exact hcomma c hc
      · exact ih c hc

theorem Flat.pairsUp {t : Text} (h : Flat t) : pairsUp 0 t = true := by
  induction t with
  | nil => rfl
  | cons c t ih =>
    obtain ⟨⟨hopening, hclosing, -⟩, ht⟩ := List.forall_mem_cons.1 h
    simp [Script.pairsUp, depthAfter, hopening, hclosing, ih ht]

theorem Flat.depthBehind_append {s : Text} (hs : Flat s) (depth : Nat) (t : Text) :
    depthBehind depth (s ++ t) = depthBehind depth t := by
  induction s with
  | nil => rfl
  | cons c s ih =>
    obtain ⟨⟨hopening, hclosing, hhash⟩, hs⟩ := List.forall_mem_cons.1 hs
    simp [depthBehind, depthAfter, hopening, hclosing, hhash, ih hs]

namespace Definition

variable {indent : Text} (definition : Definition)

theorem inert_opening : Inert definition.opening := by
  rw [opening]
  split
  · exact (by decide : Inert ("async ".toList ++ "def ".toList))
  · exact (by decide : Inert ([] ++ "def ".toList))

theorem inert_front (hindent : ∀ c ∈ indent, Text.isBlank c = true) :
    Inert (indent ++ definition.opening ++ definition.name.text) :=
  ((inert_of_blank hindent).append definition.inert_opening).append definition.name.inert

theorem append_written (indent : Text) : indent ++ definition.written =
    indent ++ definition.opening ++ definition.name.text ++
      '(' :: (listed definition.parameters ++ ')' :: [':']) := by
  simp [written]

theorem not_mem_written (hindent : ∀ c ∈ indent, Text.isBlank c = true) :
    '#' ∉ indent ++ definition.written := by
  intro h
  rw [append_written, List.mem_append] at h
  rcases h with h | h
  · exact definition.inert_front hindent '#' h (by decide)
  · have hlisted : '#' ∈ listed definition.parameters := by simpa using h
    exact (flat_listed _ '#' hlisted).2.2 rfl

theorem signature_written (hindent : ∀ c ∈ indent, Text.isBlank c = true) (number : Nat)
    (rest : List Text) :
    signature number ⟨0, false⟩ ((indent ++ definition.written) :: rest) =
      ((glyphsOf number 0 ⟨0, false⟩ (indent ++ definition.written)).1, 1) := by
  have hclosed : depthBehind 0 (indent ++ definition.written) = 0 := by
    rw [append_written, (definition.inert_front hindent).flat.depthBehind_append]
    show depthBehind 1 _ = 0
    rw [(flat_listed _).depthBehind_append]
    rfl
  exact signature_closed (c := '(') rfl (by simp [append_written]) hclosed number rest

theorem exists_front (hindent : ∀ c ∈ indent, Text.isBlank c = true) :
    ∃ front, indent ++ definition.opening = front ++ "def ".toList ∧ 'd' ∉ front := by
  have hd : 'd' ∉ indent := fun h => absurd (hindent 'd' h) (by decide)
  rw [opening, ← List.append_assoc]
  refine ⟨_, rfl, ?_⟩
  rw [List.mem_append, not_or]
  refine ⟨hd, ?_⟩
  split <;> decide

theorem isPrivate_name :
    Text.startsWith ['_'] definition.name.text = !definition.isPublic := by
  rw [isPublic, Text.startsWith_singleton, decide_not, Bool.not_not]

theorem keyword?_written {front : Text} {glyphs : List Glyph} (hd : 'd' ∉ front)
    (htext : glyphs.map Glyph.char = front ++ "def ".toList ++ definition.name.text ++
      '(' :: (listed definition.parameters ++ ')' :: [':'])) (moduleName : Text) (number : Nat)
    (line : Text) :
    let start := front.length + 4
    let opened := start + definition.name.text.length
    let brackets : Location := .parsed (spanOf glyphs opened
      (opened + 1 + (listed definition.parameters).length + 1))
    keyword? moduleName number line glyphs =
      if definition.isPublic then
        some { UserKeyword.named (.declared moduleName ⟨none, definition.name.text,
            .parsed (spanOf glyphs start (start + definition.name.text.length))⟩) with
          arguments := some {
            id := ⟨none, "Arguments".toList, brackets⟩
            values := declarations glyphs true
              (Script.parameters (opened + 1) 0 none (listed definition.parameters))
            location := brackets }
          location := .parsed (.onLine number 0 line.length) }
      else none := by
  have hclosed (index : Nat) : closing? 1 index (listed definition.parameters ++ ')' :: [':']) =
      some (index + (listed definition.parameters).length) :=
    closing?_append (flat_listed _).pairsUp index _
  rw [keyword?_eq hd definition.name.ne_nil definition.name.trim_text
    (definition.name.not_mem (by decide)) htext (hclosed _), definition.isPrivate_name,
    Nat.add_sub_cancel_left, List.take_left]
  cases definition.isPublic <;> rfl

theorem declared_eq (moduleName name : Text) (location : Location) :
    Identifier.declared moduleName ⟨none, name, location⟩ =
      ⟨if moduleName = [] then none else some moduleName, name, location⟩ := by
  cases moduleName <;> rfl

theorem forall₂_keyword? (hindent : ∀ c ∈ indent, Text.isBlank c = true) (moduleName : Text)
    (number : Nat) {glyphs : List Glyph} (honLine : OnLine number (indent ++ definition.written)
      glyphs) :
    List.Forall₂ (ReadsAs moduleName number (indent ++ definition.written))
      (if definition.isPublic then [definition] else [])
      (keyword? moduleName number (indent ++ definition.written) glyphs).toList := by
  obtain ⟨front, hfront, hd⟩ := definition.exists_front hindent
  have htext := honLine.map_char
  rw [append_written, hfront] at htext
  rw [definition.keyword?_written hd htext]
  cases hpublic : definition.isPublic with
  | false => exact .nil
  | true =>
    have hname : Reads glyphs (front.length + 4) definition.name.text :=
      ⟨front ++ "def ".toList, _, htext, by simp⟩
    have hinside : Reads glyphs (front.length + 4 + definition.name.text.length + 1)
        (listed definition.parameters) := by
      refine ⟨front ++ "def ".toList ++ definition.name.text ++ ['('], ')' :: [':'], ?_, ?_⟩
      · rw [htext]
        simp
      · simp only [List.length_append, List.length_singleton]
        rfl
    have hselects := honLine.selects hname definition.name.ne_nil
    rw [declared_eq]
    exact .cons ⟨rfl, rfl, hselects, rfl, _, rfl, forall₂_arguments honLine _ hinside⟩ .nil

end Definition

end SuiteIndex.Script
