import SuiteIndex.Proofs.Script.Definition
import SuiteIndex.Script.Reading

/-! # Reading back what is written

A module in plain form is made of functions and of classes with methods, each of them a
definition and the lines of a body. Reading the module gives one keyword for each public
definition, in the order in which they are written. No body has any influence: its lines
are blank or indented deeper than the line of its definition.
-/

namespace SuiteIndex.Script

/-- Whether a line is blank or indented by more than `width` characters. -/
def isDeeper (width : Nat) (line : Text) : Bool :=
  line.all Text.isBlank || width < Text.indentation line

/-- A function or a method whose definition is indented by `width` characters. -/
structure Routine (width : Nat) where
  indent : Text
  all_isBlank : indent.all Text.isBlank = true
  length_indent : indent.length = width
  definition : Definition
  body : List Text
  all_isDeeper : body.all (isDeeper width) = true

namespace Routine

variable {width : Nat}

theorem isBlank_indent (routine : Routine width) : ∀ c ∈ routine.indent, Text.isBlank c = true :=
  List.all_eq_true.1 routine.all_isBlank

def line (routine : Routine width) : Text :=
  routine.indent ++ routine.definition.written

def lines (routine : Routine width) : List Text :=
  routine.line :: routine.body

end Routine

/-- What a module is made of: functions, and classes whose methods have the same indentation. -/
inductive Block where
  | function (routine : Routine 0)
  | classOf (name : Name) (width : Nat) (hwidth : 0 < width) (methods : List (Routine width))

namespace Block

def lines : Block → List Text
  | function routine => routine.lines
  | classOf name _ _ methods =>
    ("class ".toList ++ name.text ++ [':']) :: methods.flatMap Routine.lines

end Block

/-- A definition and the line it is written in. -/
structure Placed where
  number : Nat
  line : Text
  definition : Definition

/-- The keyword is that of the definition. -/
def Placed.ReadsAs (moduleName : Text) (placed : Placed) (keyword : UserKeyword) : Prop :=
  placed.definition.ReadsAs moduleName placed.number placed.line keyword

/-- The definitions of routines of which the first one starts at line `number`. -/
def placedRoutines {width : Nat} (number : Nat) : List (Routine width) → List Placed
  | [] => []
  | routine :: rest =>
    ⟨number, routine.line, routine.definition⟩ ::
      placedRoutines (number + routine.lines.length) rest

def Block.placed (number : Nat) : Block → List Placed
  | function routine => placedRoutines number [routine]
  | classOf _ _ _ methods => placedRoutines (number + 1) methods

/-- The definitions of a module whose first block starts at line `number`. -/
def placedBlocks (number : Nat) : List Block → List Placed
  | [] => []
  | block :: rest => block.placed number ++ placedBlocks (number + block.lines.length) rest

theorem Definition.written_cases (definition : Definition) :
    ∃ t, definition.written = "def ".toList ++ t ∨
      definition.written = "async def ".toList ++ t := by
  obtain ⟨isAsync, name, parameters⟩ := definition
  cases isAsync
  · exact ⟨_, .inl rfl⟩
  · exact ⟨_, .inr rfl⟩

theorem Definition.isBlank_head_written (definition : Definition) {c : Char}
    (h : definition.written.head? = some c) : Text.isBlank c = false := by
  obtain ⟨t, hwritten | hwritten⟩ := definition.written_cases
  · rw [hwritten] at h
    cases h
    decide
  · rw [hwritten] at h
    cases h
    decide

/-- The line of a definition is neither blank nor a comment, nor does it open a class. -/
theorem Definition.opens_written (definition : Definition) :
    definition.written.isEmpty = false ∧ Text.startsWith ['#'] definition.written = false ∧
      Text.startsWith "class ".toList definition.written = false ∧
      opensDefinition definition.written = true := by
  obtain ⟨t, hwritten | hwritten⟩ := definition.written_cases
  · rw [hwritten]
    exact ⟨rfl, rfl, rfl, rfl⟩
  · rw [hwritten]
    exact ⟨rfl, rfl, rfl, rfl⟩

theorem Routine.trimStart_line {width : Nat} (routine : Routine width) :
    Text.trimStart routine.line = routine.definition.written := by
  obtain ⟨c, t, hwritten⟩ := List.exists_cons_of_ne_nil
    (List.isEmpty_eq_false_iff.1 routine.definition.opens_written.1)
  have hc := routine.definition.isBlank_head_written (congrArg List.head? hwritten)
  rw [line, Text.trimStart, List.dropWhile_append_of_pos routine.isBlank_indent, hwritten]
  exact List.dropWhile_cons_of_neg (by simp [hc])

theorem Routine.indentation_line {width : Nat} (routine : Routine width) :
    Text.indentation routine.line = width := by
  rw [line, Text.indentation_append routine.isBlank_indent
    fun _ => routine.definition.isBlank_head_written]
  exact routine.length_indent

/-- Lines that are indented deeper neither change the scope nor define keywords. -/
def Scope.Passes (scope : Scope) (width : Nat) : Prop :=
  ∀ indent, width < indent → ∀ text,
    scope.observe indent text = scope ∧ scope.accepts indent = false

theorem passes_function : Scope.Passes ⟨false, none⟩ 0 := by
  intro indent hindent text
  have hne : indent ≠ 0 := Nat.pos_iff_ne_zero.1 hindent
  simp [Scope.observe, Scope.accepts, hne]

theorem passes_class {width : Nat} : Scope.Passes ⟨true, some width⟩ width := by
  intro indent hindent text
  have hne : indent ≠ 0 := Nat.ne_zero_of_lt hindent
  simp [Scope.observe, Scope.accepts, hne, Nat.ne_of_lt hindent]

section

variable (moduleName : Text) {scope : Scope} (number : Nat) {width : Nat}

theorem keywords_deeper (hpasses : scope.Passes width) {line : Text}
    (hline : isDeeper width line = true) (rest : List Text) :
    keywords moduleName scope number (line :: rest) =
      keywords moduleName scope (number + 1) rest := by
  rw [isDeeper, Bool.or_eq_true, List.all_eq_true, decide_eq_true_eq] at hline
  rcases hline with hblank | hdeeper
  · have htext : Text.trimStart line = [] := List.dropWhile_eq_nil_iff.2 hblank
    rw [keywords, htext]
    rfl
  · obtain ⟨hobserve, haccepts⟩ := hpasses _ hdeeper (Text.trimStart line)
    rw [keywords]
    simp only [hobserve, haccepts, Bool.and_false, Bool.false_eq_true, if_false, ite_self]

theorem keywords_body (hpasses : scope.Passes width) {body : List Text}
    (hbody : body.all (isDeeper width) = true) (rest : List Text) :
    keywords moduleName scope number (body ++ rest) =
      keywords moduleName scope (number + body.length) rest := by
  induction body generalizing number with
  | nil => rfl
  | cons line body ih =>
    rw [List.all_cons, Bool.and_eq_true] at hbody
    obtain ⟨hline, hbody⟩ := hbody
    rw [List.cons_append, keywords_deeper moduleName number hpasses hline, ih _ hbody,
      List.length_cons, Nat.add_assoc, Nat.add_comm 1]

theorem keywords_routine (routine : Routine width) {within : Scope}
    (hobserve : scope.observe width routine.definition.written = within)
    (haccepts : within.accepts width = true) (hpasses : within.Passes width) (rest : List Text) :
    keywords moduleName scope number (routine.lines ++ rest) =
      (keyword? moduleName number routine.line
        (glyphsOf number 0 ⟨0, false⟩ routine.line).1).toList ++
        keywords moduleName within (number + routine.lines.length) rest := by
  obtain ⟨hfilled, hhash, -, hopens⟩ := routine.definition.opens_written
  have hsignature := routine.definition.signature_written routine.isBlank_indent number
    (routine.body ++ rest)
  have hbody := keywords_body moduleName (number + 1) hpasses routine.all_isDeeper rest
  rw [Routine.lines, List.cons_append, keywords]
  simp only [routine.trimStart_line, routine.indentation_line, hfilled, hhash, hopens, hobserve,
    haccepts, Bool.or_false, Bool.and_true, Bool.false_eq_true, if_false, if_true]
  rw [Routine.line, hsignature, Nat.sub_self, List.drop_zero, hbody, List.length_cons,
    Nat.add_assoc, Nat.add_comm 1]

theorem forall₂_placed {line : Text} {definition : Definition} {found : List UserKeyword}
    (h : List.Forall₂ (Definition.ReadsAs moduleName number line)
      (if definition.isPublic then [definition] else []) found) :
    List.Forall₂ (Placed.ReadsAs moduleName)
      ([⟨number, line, definition⟩].filter (·.definition.isPublic)) found := by
  rw [List.filter_singleton]
  cases hpublic : definition.isPublic with
  | false => simpa [hpublic] using h
  | true => simpa [hpublic, List.forall₂_cons_left_iff, Placed.ReadsAs] using h

theorem exists_routine (routine : Routine width) {within : Scope}
    (hobserve : scope.observe width routine.definition.written = within)
    (haccepts : within.accepts width = true) (hpasses : within.Passes width) (rest : List Text) :
    ∃ found, keywords moduleName scope number (routine.lines ++ rest) =
        found ++ keywords moduleName within (number + routine.lines.length) rest ∧
      List.Forall₂ (Placed.ReadsAs moduleName)
        ([⟨number, routine.line, routine.definition⟩].filter (·.definition.isPublic)) found := by
  refine ⟨_, keywords_routine moduleName number routine hobserve haccepts hpasses rest, ?_⟩
  have honLine := onLine_glyphsOf
    (routine.definition.not_mem_written routine.isBlank_indent) number ⟨0, false⟩
  exact forall₂_placed moduleName number
    (routine.definition.forall₂_keyword? routine.isBlank_indent moduleName number honLine)

theorem keywords_class (name : Name) (rest : List Text) :
    keywords moduleName scope number (("class ".toList ++ name.text ++ [':']) :: rest) =
      keywords moduleName ⟨true, none⟩ (number + 1) rest := by
  have htrim : Text.trimStart ("class ".toList ++ name.text ++ [':']) =
      "class ".toList ++ name.text ++ [':'] := rfl
  rw [keywords, htrim]
  rfl

theorem exists_methods (hwidth : 0 < width) (methods : List (Routine width))
    (hscope : scope = ⟨true, none⟩ ∨ scope = ⟨true, some width⟩) (rest : List Text) :
    ∃ within found, keywords moduleName scope number (methods.flatMap Routine.lines ++ rest) =
        found ++ keywords moduleName within
          (number + (methods.flatMap Routine.lines).length) rest ∧
      List.Forall₂ (Placed.ReadsAs moduleName)
        ((placedRoutines number methods).filter (·.definition.isPublic)) found := by
  induction methods generalizing scope number with
  | nil => exact ⟨scope, [], rfl, .nil⟩
  | cons method methods ih =>
    have hobserve : scope.observe width method.definition.written = ⟨true, some width⟩ := by
      rcases hscope with rfl | rfl
      · simp [Scope.observe, Nat.pos_iff_ne_zero.1 hwidth]
      · simp [Scope.observe, Nat.pos_iff_ne_zero.1 hwidth]
    obtain ⟨found, hfirst, hfound⟩ := exists_routine moduleName number method hobserve
      (by simp [Scope.accepts]) passes_class (methods.flatMap Routine.lines ++ rest)
    obtain ⟨within, more, hmethods, hmore⟩ := ih (number + method.lines.length) (.inr rfl)
    refine ⟨within, found ++ more, ?_, ?_⟩
    · rw [List.flatMap_cons, List.append_assoc, hfirst, hmethods, List.length_append,
        List.append_assoc, Nat.add_assoc]
    · rw [placedRoutines, ← List.singleton_append, List.filter_append]
      exact List.rel_append hfound hmore

theorem exists_block (scope : Scope) (block : Block) (rest : List Text) :
    ∃ within found, keywords moduleName scope number (block.lines ++ rest) =
        found ++ keywords moduleName within (number + block.lines.length) rest ∧
      List.Forall₂ (Placed.ReadsAs moduleName)
        ((block.placed number).filter (·.definition.isPublic)) found := by
  cases block with
  | function routine =>
    have hobserve : scope.observe 0 routine.definition.written = ⟨false, none⟩ := by
      rw [Scope.observe, if_pos rfl, routine.definition.opens_written.2.2.1]
    obtain ⟨found, hkeywords, hfound⟩ :=
      exists_routine moduleName number routine hobserve rfl passes_function rest
    exact ⟨_, found, hkeywords, hfound⟩
  | classOf name width hwidth methods =>
    have hopens : keywords moduleName scope number
        ((Block.classOf name width hwidth methods).lines ++ rest) =
          keywords moduleName ⟨true, none⟩ (number + 1)
            (methods.flatMap Routine.lines ++ rest) :=
      keywords_class moduleName number name _
    obtain ⟨within, found, hmethods, hfound⟩ :=
      exists_methods moduleName (number + 1) hwidth methods (.inl rfl) rest
    refine ⟨within, found, ?_, hfound⟩
    rw [hopens, hmethods, Block.lines, List.length_cons, Nat.add_assoc, Nat.add_comm 1]

theorem forall₂_keywords (scope : Scope) (blocks : List Block) :
    List.Forall₂ (Placed.ReadsAs moduleName)
      ((placedBlocks number blocks).filter (·.definition.isPublic))
      (keywords moduleName scope number (blocks.flatMap Block.lines)) := by
  induction blocks generalizing scope number with
  | nil =>
    rw [List.flatMap_nil, keywords]
    exact .nil
  | cons block blocks ih =>
    obtain ⟨within, found, hblock, hfound⟩ :=
      exists_block moduleName number scope block (blocks.flatMap Block.lines)
    rw [List.flatMap_cons, hblock, placedBlocks, List.filter_append]
    exact List.rel_append hfound (ih _ within)

end

theorem getElem?_placedRoutines {width number : Nat} {routines : List (Routine width)}
    {placed : Placed} (h : placed ∈ placedRoutines number routines) :
    ∃ i, placed.number = number + i ∧
      (routines.flatMap Routine.lines)[i]? = some placed.line := by
  induction routines generalizing number with
  | nil => cases h
  | cons routine routines ih =>
    rcases List.mem_cons.1 h with rfl | h
    · exact ⟨0, rfl, rfl⟩
    · obtain ⟨i, hnumber, hline⟩ := ih h
      refine ⟨routine.lines.length + i, by rw [hnumber, Nat.add_assoc], ?_⟩
      rw [List.flatMap_cons, Text.getElem?_add]
      exact hline

theorem Block.getElem?_placed {number : Nat} {block : Block} {placed : Placed}
    (h : placed ∈ block.placed number) :
    ∃ i, placed.number = number + i ∧ block.lines[i]? = some placed.line := by
  cases block with
  | function routine =>
    obtain ⟨i, hnumber, hline⟩ := getElem?_placedRoutines h
    exact ⟨i, hnumber, by simpa [lines] using hline⟩
  | classOf name width hwidth methods =>
    obtain ⟨i, hnumber, hline⟩ := getElem?_placedRoutines h
    exact ⟨i + 1, by omega, by simpa [lines] using hline⟩

theorem getElem?_placedBlocks {number : Nat} {blocks : List Block} {placed : Placed}
    (h : placed ∈ placedBlocks number blocks) :
    ∃ i, placed.number = number + i ∧ (blocks.flatMap Block.lines)[i]? = some placed.line := by
  induction blocks generalizing number with
  | nil => cases h
  | cons block blocks ih =>
    rw [List.flatMap_cons]
    rcases List.mem_append.1 h with h | h
    · obtain ⟨i, hnumber, hline⟩ := Block.getElem?_placed h
      refine ⟨i, hnumber, ?_⟩
      rw [List.getElem?_append_left (List.getElem?_eq_some_iff.1 hline).1]
      exact hline
    · obtain ⟨i, hnumber, hline⟩ := ih h
      refine ⟨block.lines.length + i, by rw [hnumber, Nat.add_assoc], ?_⟩
      rw [Text.getElem?_add]
      exact hline

/-- A module in plain form is read as the keywords of its public definitions, in their order and
each in its line. -/
theorem read_written (moduleName : Text) {text : Text} {blocks : List Block}
    (h : Text.feedLines text = blocks.flatMap Block.lines) :
    (∀ placed ∈ placedBlocks 0 blocks,
      (Text.feedLines text)[placed.number]? = some placed.line) ∧
      ∃ table, (read moduleName text).keywords? = some table ∧
        List.Forall₂ (Placed.ReadsAs moduleName)
          ((placedBlocks 0 blocks).filter (·.definition.isPublic)) table.keywords := by
  constructor
  · intro placed hplaced
    obtain ⟨i, hnumber, hline⟩ := getElem?_placedBlocks hplaced
    rw [h, hnumber, Nat.zero_add]
    exact hline
  · refine ⟨_, rfl, ?_⟩
    show List.Forall₂ _ _ (keywords moduleName .outside 0 (Text.feedLines text))
    rw [h]
    exact forall₂_keywords moduleName 0 .outside blocks

/-- A method with a list and a dictionary behind `self`. -/
def openDefinition : Definition where
  isAsync := false
  name := ⟨"open".toList, by decide⟩
  parameters := [.plain ⟨"self".toList, by decide⟩, .list ⟨"args".toList, by decide⟩,
    .dictionary ⟨"open".toList, by decide⟩]

/-- A function whose first parameter is named `self` but has a default. -/
def fetchDefinition : Definition where
  isAsync := true
  name := ⟨"fetch".toList, by decide⟩
  parameters := [.preset ⟨"self".toList, by decide⟩
    ⟨"a = $b".toList, by decide, by decide, by decide⟩]

/-- A class with a private method and a function, whose bodies are anything but balanced. -/
def pageModule : List Block :=
  [.classOf ⟨"Page".toList, by decide⟩ 2 (by decide) [
    { indent := "  ".toList
      all_isBlank := by decide
      length_indent := rfl
      definition := ⟨false, ⟨"__init__".toList, by decide⟩, [.plain ⟨"self".toList, by decide⟩]⟩
      body := ["   x = (".toList]
      all_isDeeper := by decide },
    { indent := "  ".toList
      all_isBlank := by decide
      length_indent := rfl
      definition := openDefinition
      body := [[], "   def inner(z):".toList, "    ]]".toList]
      all_isDeeper := by decide }],
  .function {
    indent := []
    all_isBlank := by decide
    length_indent := rfl
    definition := fetchDefinition
    body := [" def f(".toList]
    all_isDeeper := by decide }]

def pageSource : Text :=
  Text.join ['\n'] (["class Page:", "  def __init__(self):", "   x = (",
    "  def open(self, *args, **open):", "", "   def inner(z):", "    ]]",
    "async def fetch(self=a = $b):\r", " def f("].map String.toList)

/-- Nested and private definitions, brackets that are not closed and blank lines do not matter. -/
theorem read_written_page :
    Text.feedLines pageSource = pageModule.flatMap Block.lines ∧
      ((placedBlocks 0 pageModule).filter (·.definition.isPublic)).map
          (fun placed => (placed.number, placed.line)) =
        [(3, "  def open(self, *args, **open):".toList),
          (7, "async def fetch(self=a = $b):".toList)] ∧
      ∃ table, (read "m".toList pageSource).keywords? = some table ∧
        List.Forall₂ (Placed.ReadsAs "m".toList)
          ((placedBlocks 0 pageModule).filter (·.definition.isPublic)) table.keywords := by
  have hlines : Text.feedLines pageSource = pageModule.flatMap Block.lines := by decide +kernel
  exact ⟨hlines, by decide +kernel, (read_written "m".toList hlines).2⟩

end SuiteIndex.Script
