import SuiteIndex.Proofs.Suite.Attribution
import SuiteIndex.Proofs.Workspace.Ownership
import SuiteIndex.Proofs.Workspace.Resolution

/-! # Names behind the name of a module

A module is found by its name in lower case, whatever its letters, but what stands before the dot
of a name is compared with the modules of keywords up to the case of ASCII letters only. So a
keyword of the module that is found by a name is meant behind this name if both names are
written in ASCII, and otherwise perhaps not.
-/

namespace SuiteIndex

/-- The keyword is qualified by the module, or by none. -/
def UserKeyword.BelongsTo (moduleName : Text) (keyword : UserKeyword) : Prop :=
  keyword.id.qualifier.getD moduleName = moduleName

theorem Identifier.qualifier_declared (moduleName : Text) {id : Identifier}
    (h : id.qualifier = none) :
    (declared moduleName id).qualifier.getD moduleName = moduleName := by
  unfold declared
  split
  · rw [h]
    rfl
  · rfl

theorem KeywordsTable.belongsTo_ofTable {moduleName : Text} {table : Table} {read : KeywordsTable}
    (h : ofTable moduleName table = .ok read) :
    ∀ keyword ∈ read.keywords, keyword.BelongsTo moduleName := by
  obtain ⟨orphans, blocks, hblocks⟩ := exists_attribution (Statement.ofRows .indented table.rows)
  rw [ofTable_attribution moduleName hblocks] at h
  cases h
  intro keyword hkeyword
  obtain ⟨block, -, rfl⟩ := List.mem_map.1 hkeyword
  exact Identifier.qualifier_declared moduleName rfl

namespace Suite

variable {moduleName : Text}

theorem keywords_merge (suite : Suite) (table : KeywordsTable) :
    ({ suite with keywords? := some (mergeWith .merge suite.keywords? table) } : Suite).keywords =
      suite.keywords ++ table.keywords := by
  unfold keywords
  cases suite.keywords? <;> rfl

theorem exists_of_bind {ε α β : Type} {first : Except ε α} {second : α → Except ε β} {b : β}
    (h : first >>= second = .ok b) : ∃ a, first = .ok a ∧ second a = .ok b := by
  cases first with
  | error cause => cases h
  | ok a => exact ⟨a, rfl, h⟩

theorem belongsTo_addTable {suite changed : Suite} {table : Table}
    (h : ∀ keyword ∈ suite.keywords, keyword.BelongsTo moduleName)
    (hchanged : addTable moduleName suite table = .ok changed) :
    ∀ keyword ∈ changed.keywords, keyword.BelongsTo moduleName := by
  unfold addTable at hchanged
  split at hchanged
  · cases hchanged
    exact h
  · cases hchanged
    exact h
  · cases hchanged
    exact h
  · obtain ⟨read, hread, hchanged⟩ := exists_of_bind hchanged
    cases hchanged
    rw [keywords_merge, List.forall_mem_append]
    exact ⟨h, KeywordsTable.belongsTo_ofTable hread⟩
  · obtain ⟨read, -, hchanged⟩ := exists_of_bind hchanged
    cases hchanged
    exact h

theorem belongsTo_foldlM {suite changed : Suite} {tables : List Table}
    (h : ∀ keyword ∈ suite.keywords, keyword.BelongsTo moduleName)
    (hchanged : tables.foldlM (addTable moduleName) suite = .ok changed) :
    ∀ keyword ∈ changed.keywords, keyword.BelongsTo moduleName := by
  induction tables generalizing suite with
  | nil =>
    cases hchanged
    exact h
  | cons table tables ih =>
    rw [List.foldlM_cons] at hchanged
    obtain ⟨next, hnext, hchanged⟩ := exists_of_bind hchanged
    exact ih (belongsTo_addTable h hnext) hchanged

theorem belongsTo_read {text : Text} {suite : Suite} (h : read moduleName text = .ok suite) :
    ∀ keyword ∈ suite.keywords, keyword.BelongsTo moduleName :=
  belongsTo_foldlM (by simp [keywords, empty]) h

end Suite

namespace Script

variable {moduleName : Text}

theorem belongsTo_keyword? {number : Nat} {line : Text} {glyphs : List Glyph}
    {keyword : UserKeyword} (h : keyword? moduleName number line glyphs = some keyword) :
    keyword.BelongsTo moduleName := by
  simp only [keyword?, Option.bind_eq_bind, Option.bind_eq_some_iff] at h
  obtain ⟨defined, -, width, -, h⟩ := h
  split at h
  · cases h
  · obtain ⟨closed, -, h⟩ := Option.bind_eq_some_iff.1 h
    obtain rfl := Option.some.inj h
    exact Identifier.qualifier_declared moduleName rfl

theorem belongsTo_keywords (moduleName : Text) (scope : Scope) (number : Nat) (lines : List Text) :
    ∀ keyword ∈ keywords moduleName scope number lines, keyword.BelongsTo moduleName := by
  fun_induction keywords moduleName scope number lines with
  | case1 => simp
  | case2 => assumption
  | case3 _ _ _ _ _ _ _ _ _ glyphs count _ ih =>
    intro keyword hkeyword
    rcases List.mem_append.1 hkeyword with hkeyword | hkeyword
    · exact belongsTo_keyword? (Option.mem_toList.1 hkeyword)
    · exact ih keyword hkeyword
  | case4 => assumption

end Script

theorem Document.belongsTo_read {language : Language} {moduleName text : Text}
    {document : Document} (h : read language moduleName text = .ok document) :
    ∀ keyword ∈ document.suite.keywords, keyword.BelongsTo moduleName := by
  cases language with
  | tabular =>
    unfold read at h
    cases hsuite : Suite.read moduleName text with
    | error cause =>
      rw [hsuite] at h
      cases h
    | ok suite =>
      rw [hsuite] at h
      cases h
      exact Suite.belongsTo_read hsuite
  | python =>
    cases h
    exact Script.belongsTo_keywords moduleName .outside 0 (Text.feedLines text)

namespace Module

/-- The module is a library, or a file whose document was read from a text. -/
inductive IsRead : Module → Prop
  | file (path : Path) {language : Language} {text : Text} {document : Document}
    (h : Document.read language document.moduleName text = .ok document) :
    IsRead (.file (.ofDocument path document))
  | library (definition : LibraryDefinition) : IsRead (.library (.ofDefinition definition))

/-- The symbols of a suite have the name of the module that its keywords belong to. -/
theorem moduleName_of_mem_ofSuite {moduleName : Text} {origin : Origin} {suite : Suite}
    (h : ∀ keyword ∈ suite.keywords, keyword.BelongsTo moduleName) {symbol : KeywordSymbol}
    (hsymbol : symbol ∈ (Symbols.ofSuite moduleName origin suite).keywords.items) :
    symbol.moduleName = moduleName := by
  have hmem := (Symbols.keywords_perm_ofSuite moduleName origin suite).subset hsymbol
  obtain ⟨keyword, hkeyword, rfl⟩ := List.mem_map.1 hmem
  exact h keyword hkeyword

theorem IsRead.moduleName_eq {m : Module} (h : m.IsRead) {symbol : KeywordSymbol}
    (hsymbol : symbol ∈ m.symbols.keywords.items) : symbol.moduleName = m.name := by
  cases h with
  | file path h => exact moduleName_of_mem_ofSuite (Document.belongsTo_read h) hsymbol
  | library definition =>
    refine moduleName_of_mem_ofSuite (fun keyword hkeyword => ?_) hsymbol
    obtain ⟨_, -, rfl⟩ := List.mem_map.1 hkeyword
    rfl

end Module

namespace Workspace

variable {workspace : Workspace}

theorem Reachable.of_module? (h : workspace.Reachable) {name : Text} {m : Module}
    (hm : workspace.module? name = some m) : m ∈ workspace.modules ∧ m.key = Text.lower name := by
  obtain ⟨modules, htracks⟩ := h.exists_tracks
  obtain ⟨owner, howner, hm⟩ := Option.bind_eq_some_iff.1 hm
  obtain ⟨found, hmem, hfound, hkey⟩ := h.ownedInTurn.exists_owned htracks howner
  obtain rfl := Option.some.inj (hfound.symm.trans hm)
  exact ⟨hmem, hkey⟩

theorem Reachable.mem_keywords (h : workspace.Reachable) {m : Module} (hm : m ∈ workspace.modules)
    {keyword : KeywordSymbol} (hkeyword : keyword ∈ m.symbols.keywords.items) :
    keyword ∈ workspace.symbols.keywords.items := by
  exact h.symbols_perm.1.mem_iff.2 (List.mem_flatMap.2 ⟨m, hm, hkeyword⟩)

theorem isRead_of_mem_run {operations : List Operation} {m : Module}
    (hm : m ∈ (run operations).modules) : m.IsRead := by
  cases m with
  | file file =>
    obtain ⟨path, text, hread⟩ := exists_ofText_of_mem_run (mem_modules_file.1 hm)
    obtain ⟨language, document, -, hdocument, rfl⟩ := SourceFile.exists_read_of_ofText hread
    rw [← Document.moduleName_of_read hdocument] at hdocument
    exact .file path hdocument
  | library library =>
    obtain ⟨modules, htracks, hdeclared⟩ := (reachable_run operations).exists_declared
    cases hdeclared _ (htracks.perm_modules.subset hm) with
    | library definition => exact .library definition

/-- A keyword of the module found by a name is meant behind this name exactly if its own module has
the same name up to the case of ASCII letters. The module of a keyword is the one it was read in,
so the keyword is meant in particular if that module and the name it was found by are in ASCII. -/
theorem mem_resolveKeyword_of_module_iff (h : workspace.Reachable) {name word : Text} {m : Module}
    (hm : workspace.module? name = some m) {keyword : KeywordSymbol}
    (hkeyword : keyword ∈ m.symbols.keywords.items)
    (hword : Text.lower keyword.name = Text.lower word) (location : Location) (moduleName : Text) :
    (keyword ∈ workspace.resolveKeyword ⟨some name, word, location⟩ moduleName ↔
      Text.sameIgnoringAsciiCase keyword.moduleName name = true) ∧
    (m.IsRead → keyword.moduleName = m.name ∧ (m.name.isAscii = true → name.isAscii = true →
      keyword ∈ workspace.resolveKeyword ⟨some name, word, location⟩ moduleName)) := by
  obtain ⟨modules, htracks⟩ := h.exists_tracks
  have hvalid := htracks.index.keywords.valid
  obtain ⟨hmem, hkey⟩ := h.of_module? hm
  have hitem := h.mem_keywords hmem hkeyword
  have hmeant : keyword ∈ workspace.resolveKeyword ⟨some name, word, location⟩ moduleName ↔
      Text.sameIgnoringAsciiCase keyword.moduleName name = true := by
    rw [mem_resolveKeyword_of_qualifier rfl]
    constructor
    · rintro (⟨-, hsame⟩ | ⟨hfull, -⟩)
      · exact hsame
      · -- With the qualifier in front the name is too long for the keyword.
        have hlonger : Text.lower keyword.name = Text.lower ((name ++ ['.']) ++ word) := by
          rw [List.append_assoc, List.singleton_append]
          exact (hvalid.mem_exact_iff.1 hfull).2
        exact absurd (hlonger.symm.trans hword) (Text.lower_append_ne (by simp) word)
    · exact fun hsame => .inl ⟨hvalid.mem_exact_iff.2 ⟨hitem, hword⟩, hsame⟩
  refine ⟨hmeant, fun hread => ⟨hread.moduleName_eq hkeyword, fun hleft hright => ?_⟩⟩
  rw [hmeant, hread.moduleName_eq hkeyword]
  exact (Text.sameIgnoringAsciiCase_iff hleft hright).2 hkey

theorem mem_resolveKeyword_of_module_capitals :
    let definition : LibraryDefinition := ⟨"Browser".toList, [], [⟨"Find".toList, .list [], []⟩]⟩
    let workspace := run [.addLibrary definition]
    let keyword : KeywordSymbol :=
      ⟨"Find".toList, "Browser".toList, .library "Browser".toList, .synthetic, [], none⟩
    workspace.Reachable ∧
      workspace.module? "BROWSER".toList = some (.library (.ofDefinition definition)) ∧
      keyword ∈ (Library.ofDefinition definition).symbols.keywords.items ∧
      keyword ∈ workspace.resolveKeyword ⟨some "BROWSER".toList, "FIND".toList, .synthetic⟩
        "t".toList := by
  intro definition workspace keyword
  have hreachable : workspace.Reachable := reachable_run _
  have hmodule : workspace.module? "BROWSER".toList =
      some (.library (.ofDefinition definition)) := by
    dsimp only [workspace, definition]
    rfl
  have hitems : (Library.ofDefinition definition).symbols.keywords.items = [keyword] := by
    dsimp only [definition, keyword]
    decide +kernel
  have hkeyword : keyword ∈ (Library.ofDefinition definition).symbols.keywords.items :=
    hitems ▸ List.mem_singleton_self keyword
  have hword : Text.lower keyword.name = Text.lower "FIND".toList := by decide
  obtain ⟨-, hmeant⟩ := mem_resolveKeyword_of_module_iff hreachable hmodule hkeyword hword
    .synthetic "t".toList
  obtain ⟨-, hmeant⟩ := hmeant (.library definition)
  exact ⟨hreachable, hmodule, hkeyword, hmeant (by decide) (by decide)⟩

/-- A library is found by its name in small letters, but behind them its keyword means nothing. -/
theorem resolveKeyword_accented_module :
    let definition : LibraryDefinition := ⟨"É".toList, [], [⟨"Find".toList, .list [], []⟩]⟩
    let workspace := run [.addLibrary definition]
    let keyword : KeywordSymbol :=
      ⟨"Find".toList, "É".toList, .library "É".toList, .synthetic, [], none⟩
    workspace.Reachable ∧ '.' ∉ keyword.name ∧ keyword.name ≠ [] ∧
      workspace.module? "é".toList = some (.library (.ofDefinition definition)) ∧
      keyword ∈ (Library.ofDefinition definition).symbols.keywords.items ∧
      workspace.resolveKeyword ⟨some "é".toList, keyword.name, .synthetic⟩ "t".toList = [] := by
  intro definition workspace keyword
  have hitems : (Library.ofDefinition definition).symbols.keywords.items = [keyword] := by
    dsimp only [definition, keyword]
    decide +kernel
  refine ⟨reachable_run _, by decide, by decide, ?_, hitems ▸ List.mem_singleton_self keyword, ?_⟩
  · dsimp only [workspace, definition]
    rfl
  · dsimp only [workspace, definition, keyword]
    decide +kernel

end Workspace

end SuiteIndex
