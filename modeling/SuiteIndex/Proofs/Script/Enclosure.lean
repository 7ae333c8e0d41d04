import SuiteIndex.Proofs.Editor.Cursor
import SuiteIndex.Proofs.Script.Keyword

/-! # Suites of Python modules

Every node of such a suite has a span, and it encloses those of its children, with one
exception: a keyword is located at the line of its `def`, so that a name, brackets or
parameters on later lines stick out of it. A cursor search does not enter a keyword from
there. So a parameter is found from some position exactly if it starts on the line of its
keyword.
-/

namespace SuiteIndex.Script
open Node

theorem onLine_le_spanOfLines {lines : List Text} {i : Nat} {line : Text}
    (h : lines[i]? = some line) : Span.onLine i 0 line.length ≤ spanOfLines lines := by
  obtain ⟨hi, rfl⟩ := List.getElem?_eq_some_iff.1 h
  have hlast : lines.getLast? = some lines[lines.length - 1] := by
    rw [List.getLast?_eq_getElem?, List.getElem?_eq_getElem]
  rw [spanOfLines, hlast]
  refine ⟨Position.le_iff.2 (by simp [Span.onLine]; omega), Position.le_iff.2 ?_⟩
  rcases Nat.lt_or_ge i (lines.length - 1) with hlt | hge
  · exact .inl hlt
  · obtain rfl : i = lines.length - 1 := by omega
    exact .inr ⟨rfl, le_rfl⟩

def keywordsOf (moduleName text : Text) : List UserKeyword :=
  keywords moduleName .outside 0 (Text.feedLines text)

section

variable {moduleName text : Text}

theorem children_read : (testSuite (read moduleName text)).children =
    [keywordsTable ⟨keywordsOf moduleName text, (read moduleName text).location⟩] := by
  simp [children_eq, fields, read, Suite.empty, keywordsOf]

theorem listed_keywordsOf (moduleName text : Text) :
    Listed (Text.feedLines text) 0 (keywordsOf moduleName text) :=
  listed_keywords (Text.feedLines text) moduleName .outside 0

theorem located_read (moduleName text : Text) :
    Throughout Located (testSuite (read moduleName text)) := by
  have hlocation : (read moduleName text).location = .parsed (spanOfLines (Text.feedLines text)) :=
    rfl
  refine located_of_children hlocation ?_
  rw [children_read, List.forall_mem_singleton]
  refine ⟨located_of_children hlocation fun child hchild => ?_, _, hlocation, le_rfl⟩
  obtain ⟨keyword, hkeyword, rfl⟩ : ∃ keyword ∈ keywordsOf moduleName text,
      userKeyword keyword = child := by
    simpa [children_eq, fields] using hchild
  obtain ⟨first, next, -, -, line, setting, hline, hsigned⟩ :=
    (listed_keywordsOf moduleName text).exists_occupies hkeyword
  exact ⟨hsigned.located, _, hsigned.location, onLine_le_spanOfLines hline⟩

end

/-- The kinds of nodes that values and names consist of. -/
def isValue : Node → Bool
  | identifier _ | literal _ | templateElement _ | variableExpression _ | templateLiteral _
  | callExpression _ => true
  | _ => false

theorem isValue_ofExpression (e : Expression) : isValue (ofExpression e) = true := by
  cases e <;> rfl

theorem isValue_of_child {node child : Node} (h : isValue node = true)
    (hchild : child ∈ node.children) : isValue child = true := by
  cases node with
  | identifier | literal | templateElement => cases hchild
  | variableExpression use =>
    obtain rfl : child = identifier use.id := by simpa [children_eq, fields] using hchild
    rfl
  | templateLiteral template =>
    rw [children_eq] at hchild
    simp only [fields, List.flatMap_cons, List.flatMap_nil, List.append_nil, List.mem_append,
      List.mem_map] at hchild
    rcases hchild with ⟨piece, -, rfl⟩ | ⟨use, -, rfl⟩ <;> rfl
  | callExpression call =>
    rw [children_eq] at hchild
    simp only [fields, List.flatMap_cons, List.flatMap_nil, List.append_nil, List.mem_append,
      List.mem_map, List.mem_singleton] at hchild
    rcases hchild with rfl | ⟨e, -, rfl⟩
    · rfl
    · exact isValue_ofExpression e
  | _ => cases h

/-- A chain goes from parents to children. -/
def Descends (chain : List Node) : Prop :=
  chain.IsChain fun parent child => child ∈ parent.children

theorem Descends.step {node : Node} {below : List Node} (h : Descends (node :: below)) :
    below = [] ∨ ∃ child ∈ node.children, ∃ rest, below = child :: rest ∧
      Descends (child :: rest) := by
  cases below with
  | nil => exact .inl rfl
  | cons child rest =>
    obtain ⟨hchild, hrest⟩ := List.isChain_cons_cons.1 h
    exact .inr ⟨child, hchild, rest, rfl, hrest⟩

theorem Descends.eq_nil {id : Identifier} {below : List Node}
    (h : Descends (identifier id :: below)) : below = [] := by
  obtain rfl | ⟨child, hchild, -⟩ := h.step
  · rfl
  · cases hchild

theorem Descends.isValue {parameter : Declaration} {below : List Node}
    (h : Descends (variableDeclaration parameter :: below)) :
    ∀ node ∈ below, Script.isValue node = true := by
  obtain rfl | ⟨first, hfirst, rest, rfl, hrest⟩ := h.step
  · simp
  obtain rfl | ⟨e, -, rfl⟩ : first = identifier parameter.id ∨
      ∃ e ∈ parameter.values, ofExpression e = first := by
    simpa [children_eq, fields] using hfirst
  · simp [hrest.eq_nil, Script.isValue]
  · exact hrest.induction _ _ (fun _ _ hchild hvalue => isValue_of_child hvalue hchild)
      fun _ => isValue_ofExpression e

section

variable {moduleName text : Text} {chain : List Node} {keyword : UserKeyword}
  {setting : Arguments} {parameter : Declaration}

/-- The chain leads through the parameter of a keyword, and through no other one. -/
structure Through (chain : List Node) (keyword : UserKeyword) (setting : Arguments)
    (parameter : Declaration) : Prop where
  arguments : keyword.arguments = some setting
  parameter_mem : parameter ∈ setting.values
  keyword_mem : userKeyword keyword ∈ chain
  declaration_mem : variableDeclaration parameter ∈ chain
  unique : ∀ other, variableDeclaration other ∈ chain → other = parameter

/-- A chain of a module leads through a parameter, or it is no longer than the one to the
name of the brackets: suite, table, keyword, brackets and name. -/
theorem length_le_or_through (h : chain ∈ chains [testSuite (read moduleName text)]) :
    (chain.length ≤ 5 ∧ ∀ parameter, variableDeclaration parameter ∉ chain) ∨
      ∃ keyword ∈ keywordsOf moduleName text, ∃ setting parameter,
        Through chain keyword setting parameter := by
  obtain ⟨hsuite, root, hroot, hhead⟩ := isChain_of_mem_chains h
  obtain rfl := List.mem_singleton.1 hroot
  obtain ⟨below, rfl⟩ := List.head?_eq_some_iff.1 hhead
  obtain rfl | ⟨table, htable, below, rfl, hmodule⟩ := Descends.step hsuite
  · simp
  obtain rfl := List.mem_singleton.1 (children_read ▸ htable)
  obtain rfl | ⟨node, hnode, below, rfl, hdown⟩ := hmodule.step
  · simp
  obtain ⟨keyword, hkeyword, rfl⟩ : ∃ keyword ∈ keywordsOf moduleName text,
      userKeyword keyword = node := by
    simpa [children_eq, fields] using hnode
  obtain ⟨first, next, -, -, line, setting, -, hsigned⟩ :=
    (listed_keywordsOf moduleName text).exists_occupies hkeyword
  obtain rfl | ⟨part, hpart, below, rfl, hfurther⟩ := hdown.step
  · simp
  obtain rfl | rfl := List.mem_pair.1 (hsigned.children ▸ hpart)
  · simp [hfurther.eq_nil]
  obtain rfl | ⟨value, hvalue, below, rfl, hlast⟩ := hfurther.step
  · simp
  obtain rfl | ⟨parameter, hparameter, rfl⟩ : value = identifier setting.id ∨
      ∃ parameter ∈ setting.values, variableDeclaration parameter = value := by
    simpa [children_eq, fields] using hvalue
  · simp [hlast.eq_nil]
  · have hbelow := hlast.isValue
    refine .inr ⟨keyword, hkeyword, setting, parameter, hsigned.arguments, hparameter, by simp,
      by simp, fun other hother => ?_⟩
    simp only [List.mem_cons, reduceCtorEq, false_or, variableDeclaration.injEq] at hother
    rcases hother with rfl | hother
    · rfl
    · cases hbelow _ hother

end

theorem onLine_contains_iff {first width : Nat} {position : Position} :
    (Location.parsed (.onLine first 0 width)).contains position = true ↔
      position.line = first ∧ position.column ≤ width := by
  simp only [Location.contains, Span.contains_eq_true, Span.onLine, Position.le_iff]
  omega

section

variable {moduleName text : Text} {keyword : UserKeyword} {setting : Arguments}
  {parameter : Declaration} {position : Position}

theorem exists_signed (hkeyword : keyword ∈ keywordsOf moduleName text)
    (harguments : keyword.arguments = some setting) :
    ∃ first next line, (Text.feedLines text)[first]? = some line ∧
      Signed first next line.length setting keyword := by
  obtain ⟨first, next, -, -, line, _, hline, hsigned⟩ :=
    (listed_keywordsOf moduleName text).exists_occupies hkeyword
  obtain rfl := Option.some.inj (hsigned.arguments.symm.trans harguments)
  exact ⟨first, next, line, hline, hsigned⟩

theorem eq_of_contains {other : UserKeyword} (hkeyword : keyword ∈ keywordsOf moduleName text)
    (hother : other ∈ keywordsOf moduleName text)
    (hin : keyword.location.contains position = true)
    (hout : other.location.contains position = true) : keyword = other := by
  by_contra hne
  obtain ⟨first, next, start, last, ⟨hnext, _, _, -, hsigned⟩, ⟨hlast, _, _, -, hsecond⟩, hapart⟩ :=
    (listed_keywordsOf moduleName text).exists_apart hkeyword hother hne
  rw [hsigned.location, onLine_contains_iff] at hin
  rw [hsecond.location, onLine_contains_iff] at hout
  omega

theorem eq_of_parameter {other : UserKeyword} {others : Arguments}
    (hkeyword : keyword ∈ keywordsOf moduleName text)
    (hother : other ∈ keywordsOf moduleName text)
    (harguments : keyword.arguments = some setting) (hparameter : parameter ∈ setting.values)
    (hothers : other.arguments = some others) (hshared : parameter ∈ others.values) :
    keyword = other := by
  by_contra hne
  obtain ⟨first, next, start, last, ⟨-, _, _, -, hsigned⟩, ⟨-, _, _, -, hsecond⟩, hapart⟩ :=
    (listed_keywordsOf moduleName text).exists_apart hkeyword hother hne
  obtain rfl := Option.some.inj (hsigned.arguments.symm.trans harguments)
  obtain rfl := Option.some.inj (hsecond.arguments.symm.trans hothers)
  obtain ⟨span, _, hspan, hlow, hhigh, -⟩ := hsigned.parameters parameter hparameter
  obtain ⟨same, _, hsame, hsecondLow, hsecondHigh, -⟩ := hsecond.parameters parameter hshared
  obtain rfl := Location.parsed.inj (hspan.symm.trans hsame)
  omega

theorem contains_start_of_mem_chain (hkeyword : keyword ∈ keywordsOf moduleName text)
    (harguments : keyword.arguments = some setting) (hparameter : parameter ∈ setting.values)
    {span : Span} (hspan : parameter.location = .parsed span)
    (h : variableDeclaration parameter ∈ Cursor.chain (read moduleName text) position) :
    keyword.location.contains span.start = true := by
  obtain ⟨-, hnil⟩ | hlongest := Cursor.lastLongest_chain_open (read moduleName text) position
  · rw [hnil] at h
    cases h
  obtain ⟨hchain, hopen⟩ := mem_openChains.1 hlongest.mem
  obtain ⟨-, hnone⟩ | ⟨other, hother, others, found, hthrough⟩ := length_le_or_through hchain
  · exact absurd h (hnone parameter)
  obtain rfl := hthrough.unique parameter h
  obtain rfl := eq_of_parameter hkeyword hother harguments hparameter hthrough.arguments
    hthrough.parameter_mem
  have hin : keyword.location.contains position = true := hopen _ hthrough.keyword_mem
  have haround : parameter.location.contains position = true := hopen _ hthrough.declaration_mem
  obtain ⟨first, next, line, -, hsigned⟩ := exists_signed hkeyword harguments
  obtain ⟨_, _, hsame, hlow, -⟩ := hsigned.parameters parameter hparameter
  obtain rfl := Location.parsed.inj (hspan.symm.trans hsame)
  rw [hspan] at haround
  obtain ⟨hstart, -⟩ := Span.contains_eq_true.1 haround
  rw [hsigned.location, onLine_contains_iff] at hin ⊢
  rw [Position.le_iff] at hstart
  omega

/-- The chain to the name of a parameter, all nodes of it around a position in that name. -/
theorem exists_open_chain (hkeyword : keyword ∈ keywordsOf moduleName text)
    (harguments : keyword.arguments = some setting) (hparameter : parameter ∈ setting.values)
    {span : Span} (hspan : parameter.location = .parsed span)
    (hstart : keyword.location.contains span.start = true) :
    ∃ position, keyword.location.contains position = true ∧
      parameter.location.contains position = true ∧
      ∃ chain ∈ openChains position [testSuite (read moduleName text)], 5 < chain.length := by
  obtain ⟨first, next, line, hline, hsigned⟩ := exists_signed hkeyword harguments
  obtain ⟨_, position, hsame, -, -, hposition, hcolumn, hbrackets, haround, hname⟩ :=
    hsigned.parameters parameter hparameter
  obtain rfl := Location.parsed.inj (hspan.symm.trans hsame)
  rw [hsigned.location, onLine_contains_iff] at hstart
  have hfirst : position.line = first := hposition.trans hstart.1
  have hin : keyword.location.contains position = true := by
    rw [hsigned.location, onLine_contains_iff]
    exact ⟨hfirst, hcolumn hfirst⟩
  have hsuite : (read moduleName text).location.contains position = true := by
    rw [hsigned.location] at hin
    exact Span.contains_of_le (onLine_le_spanOfLines hline) hin
  have hid : [identifier parameter.id] ∈
      openChains position (variableDeclaration parameter).children :=
    cons_mem_openChains (by simp [children_eq, fields]) hname (.inl rfl)
  have hdeclaration : variableDeclaration parameter :: [identifier parameter.id] ∈
      openChains position (Node.arguments setting).children :=
    cons_mem_openChains (by simp [children_eq, fields, hparameter]) haround (.inr hid)
  have hsetting : Node.arguments setting :: variableDeclaration parameter ::
      [identifier parameter.id] ∈ openChains position (userKeyword keyword).children :=
    cons_mem_openChains (by simp [hsigned.children]) hbrackets (.inr hdeclaration)
  have hmodule : userKeyword keyword :: Node.arguments setting ::
      variableDeclaration parameter :: [identifier parameter.id] ∈ openChains position
        (keywordsTable ⟨keywordsOf moduleName text, (read moduleName text).location⟩).children :=
    cons_mem_openChains (by simp [children_eq, fields, hkeyword]) hin (.inr hsetting)
  have htable : keywordsTable ⟨keywordsOf moduleName text, (read moduleName text).location⟩ ::
      userKeyword keyword :: Node.arguments setting :: variableDeclaration parameter ::
        [identifier parameter.id] ∈
      openChains position (testSuite (read moduleName text)).children :=
    cons_mem_openChains (by simp [children_read]) hsuite (.inr hmodule)
  exact ⟨position, hin, haround, _,
    cons_mem_openChains List.mem_cons_self hsuite (.inr htable), by simp⟩

theorem exists_mem_chain_of_contains_start (hkeyword : keyword ∈ keywordsOf moduleName text)
    (harguments : keyword.arguments = some setting) (hparameter : parameter ∈ setting.values)
    {span : Span} (hspan : parameter.location = .parsed span)
    (hstart : keyword.location.contains span.start = true) :
    ∃ position, variableDeclaration parameter ∈ Cursor.chain (read moduleName text) position := by
  obtain ⟨position, hin, haround, chain, hchain, hlong⟩ :=
    exists_open_chain hkeyword harguments hparameter hspan hstart
  refine ⟨position, ?_⟩
  obtain ⟨hnone, -⟩ | hlongest := Cursor.lastLongest_chain_open (read moduleName text) position
  · rw [hnone] at hchain
    cases hchain
  have hlength := hlongest.length_le hchain
  obtain ⟨hfound, hopen⟩ := mem_openChains.1 hlongest.mem
  obtain ⟨hshort, -⟩ | ⟨other, hother, others, found, hthrough⟩ := length_le_or_through hfound
  · omega
  obtain rfl := eq_of_contains hkeyword hother hin (hopen _ hthrough.keyword_mem)
  obtain rfl := Option.some.inj (hthrough.arguments.symm.trans harguments)
  -- The chain found leads through a parameter of the same keyword around the same position.
  obtain ⟨first, next, line, -, hsigned⟩ := exists_signed hkeyword harguments
  obtain rfl : found = parameter := by
    by_contra hne
    have hapart := List.pairwise_map.1 hsigned.apart
    have hdisjoint := hapart.forall hthrough.parameter_mem hparameter hne
    have hout := hdisjoint position (hopen _ hthrough.declaration_mem)
    rw [show (variableDeclaration parameter).location = parameter.location from rfl, haround] at hout
    cases hout
  exact hthrough.declaration_mem

end

theorem mem_keywordsOf {moduleName text : Text} {table : KeywordsTable} {keyword : UserKeyword}
    (htable : table ∈ (read moduleName text).keywords?) (hkeyword : keyword ∈ table.keywords) :
    keyword ∈ keywordsOf moduleName text := by
  obtain rfl := Option.some.inj htable
  exact hkeyword

/-- Every node of a module has a span that encloses those of its children, up to those
parts of a keyword that end below the line of its `def`. A parameter is found from some
position exactly if it starts on that line. -/
theorem read_encloses_but_below_def (moduleName text : Text) :
    (∀ node, Reaches (.testSuite (read moduleName text)) node →
      ∃ span, node.location = .parsed span ∧ ∀ child ∈ node.children,
        ∃ inner, child.location = .parsed inner ∧
          (span.encloses inner = true ∨
            node.kind = .userKeyword ∧ span.stop.line < inner.stop.line)) ∧
    ∀ table ∈ (read moduleName text).keywords?, ∀ keyword ∈ table.keywords,
      ∀ setting ∈ keyword.arguments, ∀ parameter ∈ setting.values,
        ∃ span, parameter.location = .parsed span ∧
          ((∃ position, .variableDeclaration parameter ∈
            Cursor.chain (read moduleName text) position) ↔
              keyword.location.contains span.start = true) := by
  refine ⟨located_read moduleName text, fun table htable keyword hkeyword setting hsetting
    parameter hparameter => ?_⟩
  have hkeyword := mem_keywordsOf htable hkeyword
  have harguments : keyword.arguments = some setting := hsetting
  obtain ⟨first, next, line, -, hsigned⟩ := exists_signed hkeyword harguments
  obtain ⟨span, -, hspan, -⟩ := hsigned.parameters parameter hparameter
  refine ⟨span, hspan, ?_, exists_mem_chain_of_contains_start hkeyword harguments hparameter hspan⟩
  rintro ⟨position, hposition⟩
  exact contains_start_of_mem_chain hkeyword harguments hparameter hspan hposition

/-- The brackets of a signature on two lines stick out of the keyword, and the parameter on
the second line is found from no position. -/
theorem parameter_below_def_not_found :
    let suite := read "m".toList "def f(\n    a): pass".toList
    ∃ keyword setting parameter, Reaches (.testSuite suite) (.userKeyword keyword) ∧
      .arguments setting ∈ (Node.userKeyword keyword).children ∧
      keyword.location.encloses? setting.location = some false ∧
      parameter ∈ setting.values ∧
      ∀ position, .variableDeclaration parameter ∉ Cursor.chain suite position := by
  intro suite
  let parameter : Declaration :=
    ⟨⟨none, "a".toList, .parsed (.onLine 1 4 5)⟩, .scalar, [], .parsed (.onLine 1 4 5)⟩
  let brackets : Location := .parsed ⟨⟨0, 5⟩, ⟨1, 6⟩⟩
  let setting : Arguments := ⟨⟨none, "Arguments".toList, brackets⟩, [parameter], brackets⟩
  let keyword : UserKeyword :=
    { UserKeyword.named ⟨some "m".toList, "f".toList, .parsed (.onLine 0 4 5)⟩ with
      arguments := some setting
      location := .parsed (.onLine 0 0 6) }
  have hkeywords : keywordsOf "m".toList "def f(\n    a): pass".toList = [keyword] := by
    dsimp only [keyword, setting, brackets, parameter]
    have hlines : Text.feedLines "def f(\n    a): pass".toList =
        ["def f(".toList, "    a): pass".toList] := by decide +kernel
    have hcount : (signature 0 ⟨0, false⟩
        ["def f(".toList, "    a): pass".toList]).2 = 2 := by decide +kernel
    rw [keywordsOf, hlines, keywords, if_neg (by decide +kernel)]
    dsimp only
    rw [if_pos (by decide +kernel), hcount,
      show List.drop (2 - 1) ["    a): pass".toList] = [] from rfl, keywords]
    rfl
  have hkeyword : keyword ∈ keywordsOf "m".toList "def f(\n    a): pass".toList :=
    hkeywords ▸ List.mem_singleton_self keyword
  refine ⟨keyword, setting, parameter, ?_, ?_, rfl, List.mem_singleton_self parameter, ?_⟩
  · have htable : keywordsTable ⟨[keyword], suite.location⟩ ∈ (testSuite suite).children := by
      rw [← hkeywords]
      simp [suite, children_read]
    exact .tail (.single htable) (by simp [children_eq, fields])
  · simp [children_eq, fields, keyword]
  · intro position hposition
    have hstart := contains_start_of_mem_chain hkeyword rfl (List.mem_singleton_self parameter)
      rfl hposition
    cases hstart

end SuiteIndex.Script
