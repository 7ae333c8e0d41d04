import SuiteIndex.Editor.Definition
import SuiteIndex.Proofs.Editor.Reference
import SuiteIndex.Proofs.Suite.Separation
import SuiteIndex.Proofs.Workspace.Rebuild

/-! # Usages and definitions agree

The usages of a keyword are the places of all files whose names can mean it. Going from any
position of such a place to the definition leads to all keywords that the name can mean
there, so it leads back to the keyword. Keyword libraries use no keywords.
-/

namespace SuiteIndex
open Node

namespace Script

theorem uses_parameter? {glyphs : List Glyph} {isFirst : Bool} {start : Nat} {raw : Text}
    {declaration : Declaration} (h : parameter? glyphs isFirst start raw = some declaration) :
    (variableDeclaration declaration).uses = [] := by
  simp only [parameter?] at h
  split at h
  · cases h
  · split at h
    all_goals
      split at h
      · cases h
      · cases h
        rw [uses_eq]
        simp [used, children_eq, fields]

theorem uses_declarations (glyphs : List Glyph) (isFirst : Bool) (parts : List (Nat × Text)) :
    (declarations glyphs isFirst parts).flatMap (fun d => (variableDeclaration d).uses) = [] := by
  induction parts generalizing isFirst with
  | nil => rfl
  | cons part parts ih =>
    rw [declarations, List.flatMap_append, ih]
    cases hread : parameter? glyphs isFirst part.1 part.2 with
    | none => rfl
    | some declaration => simp [uses_parameter? hread]

theorem uses_arguments (id : Identifier) (location : Location) (glyphs : List Glyph)
    (parts : List (Nat × Text)) :
    (arguments ⟨id, declarations glyphs true parts, location⟩).uses = [] := by
  rw [uses_eq]
  simpa [used, children_eq, fields, List.flatMap_map] using uses_declarations glyphs true parts

theorem uses_keyword? {moduleName line : Text} {number : Nat} {glyphs : List Glyph}
    {keyword : UserKeyword} (h : keyword? moduleName number line glyphs = some keyword) :
    (userKeyword keyword).uses = [] := by
  simp only [keyword?, Option.bind_eq_bind, Option.bind_eq_some_iff] at h
  obtain ⟨defined, -, width, -, h⟩ := h
  split at h
  · cases h
  · simp only [Option.bind_eq_some_iff] at h
    obtain ⟨closed, -, h⟩ := h
    cases h
    rw [uses_eq]
    simp [used, children_eq, fields, UserKeyword.named, uses_arguments]

theorem uses_keywords (moduleName : Text) (scope : Scope) (number : Nat) (lines : List Text) :
    (keywords moduleName scope number lines).flatMap (fun k => (userKeyword k).uses) = [] := by
  fun_induction keywords moduleName scope number lines with
  | case1 => rfl
  | case2 scope number line rest text hpassed ih => exact ih
  | case3 scope number line rest text hfilled indent inner hopens glyphs count hsignature ih =>
    rw [List.flatMap_append, ih]
    cases hread : keyword? moduleName number line glyphs with
    | none => rfl
    | some keyword => simp [uses_keyword? hread]
  | case4 scope number line rest text hfilled indent inner hother ih => exact ih

theorem uses_read (moduleName text : Text) : (testSuite (read moduleName text)).uses = [] := by
  have hkeywords := uses_keywords moduleName .outside 0 (Text.feedLines text)
  rw [Suite.uses_testSuite]
  simpa [Suite.entries, children_eq, fields, read, Suite.empty, List.flatMap_map] using hkeywords

end Script

namespace SourceFile

variable {path : Path} {text : Text} {file : SourceFile}

theorem uses_or_read_of_ofText (h : ofText path text = .ok file) :
    (testSuite file.suite).uses = [] ∨ Suite.read path.moduleName text = .ok file.suite := by
  obtain ⟨language, document, -, hread, rfl⟩ := exists_read_of_ofText h
  cases language with
  | tabular =>
    unfold Document.read at hread
    obtain ⟨suite, outer, hsuite, -⟩ := Suite.exists_nests_read path.moduleName text
    rw [hsuite] at hread
    cases hread
    exact .inr hsuite
  | python =>
    cases hread
    exact .inl (Script.uses_read _ _)

theorem reference?_of_ofText (h : ofText path text = .ok file) {use : Identifier}
    (huse : use ∈ (testSuite file.suite).uses) {position : Position}
    (hin : use.location.contains position = true) :
    Cursor.reference? (Cursor.chain file.suite position) = some (.keyword use) := by
  rcases uses_or_read_of_ofText h with hnone | hread
  · simp [hnone] at huse
  · obtain ⟨suite, outer, hsuite, hnests⟩ := Suite.exists_nests_read path.moduleName text
    obtain rfl := Except.ok.inj (hsuite.symm.trans hread)
    exact Cursor.reference?_chain hnests (Suite.laid_entries_read hread) huse hin

theorem pairwise_locations_of_ofText (h : ofText path text = .ok file) :
    (testSuite file.suite).uses.Pairwise fun u v => u.location ≠ v.location := by
  rcases uses_or_read_of_ofText h with hnone | hread
  · simp [hnone]
  · rw [Suite.uses_testSuite]
    exact (Suite.laid_entries_read hread).pairwise_locations

end SourceFile

theorem Usage.beq_eq_false {p q : Path} {l m : Location}
    (h : p.components ≠ q.components ∨ l ≠ m) (isDeclaration : Bool) :
    ((⟨some p, l, isDeclaration⟩ : Usage) == ⟨some q, m, isDeclaration⟩) = false := by
  have hbeq : ((⟨some p, l, isDeclaration⟩ : Usage) == ⟨some q, m, isDeclaration⟩) =
      (decide (p.components = q.components) && (l == m && isDeclaration == isDeclaration)) := rfl
  rcases h with hpath | hlocation
  · simp [hbeq, hpath]
  · simp [hbeq, hlocation]

namespace Workspace

theorem mem_items_of_mem_resolveKeyword {workspace : Workspace}
    (h : workspace.symbols.keywords.Valid) {use : Identifier} {moduleName : Text}
    {keyword : KeywordSymbol} (hkeyword : keyword ∈ workspace.resolveKeyword use moduleName) :
    keyword ∈ workspace.symbols.keywords.items := by
  simp only [resolveKeyword, prefer] at hkeyword
  split at hkeyword
  · split at hkeyword
    · exact h.mem_items_of_mem_exact hkeyword
    · exact h.mem_items_of_mem_exact (List.mem_of_mem_filter hkeyword)
  · split at hkeyword
    · exact h.mem_items_of_mem_exact hkeyword
    · exact h.mem_items_of_mem_exact (List.mem_of_mem_filter hkeyword)

open scoped Classical in
/-- The files in their order, each with the names in it that can mean the keyword. -/
noncomputable def places (workspace : Workspace) (keyword : KeywordSymbol) :
    List (SourceFile × Identifier) :=
  workspace.files.flatMap fun file =>
    ((testSuite file.suite).uses.filter fun use =>
      keyword ∈ workspace.resolveKeyword use file.moduleName).map (file, ·)

section

variable {workspace : Workspace} {modules : List Module} {keyword : KeywordSymbol}

theorem mem_places {place : SourceFile × Identifier} :
    place ∈ workspace.places keyword ↔ place.1 ∈ workspace.files ∧
      place.2 ∈ (testSuite place.1.suite).uses ∧
      keyword ∈ workspace.resolveKeyword place.2 place.1.moduleName := by
  obtain ⟨file, use⟩ := place
  simp only [places, List.mem_flatMap, List.mem_map, List.mem_filter, decide_eq_true_eq,
    Prod.mk.injEq]
  constructor
  · rintro ⟨_, hfile, _, huse, rfl, rfl⟩
    exact ⟨hfile, huse⟩
  · rintro ⟨hfile, huse⟩
    exact ⟨file, hfile, use, huse, rfl, rfl⟩

theorem Tracks.any_beq_iff (h : workspace.Tracks modules)
    (hkeyword : keyword ∈ workspace.symbols.keywords.items) (use : Identifier)
    (moduleName : Text) :
    (workspace.resolveKeyword use moduleName).any (· == keyword) = true ↔
      keyword ∈ workspace.resolveKeyword use moduleName := by
  rw [List.any_eq_true]
  constructor
  · rintro ⟨other, hother, hbeq⟩
    have hmem := mem_items_of_mem_resolveKeyword h.index.keywords.valid hother
    exact h.index.keyword_eq_of_beq hmem hkeyword hbeq ▸ hother
  · exact fun hmem => ⟨keyword, hmem, BEq.rfl⟩

theorem Tracks.filter_usages (h : workspace.Tracks modules)
    (hkeyword : keyword ∈ workspace.symbols.keywords.items) (withDeclaration : Bool) :
    (workspace.usages keyword withDeclaration).filter (!·.isDeclaration) =
      (workspace.places keyword).map fun place => ⟨some place.1.path, place.2.location, false⟩ := by
  classical
  have hfiles (file : SourceFile) : (workspace.usagesIn keyword file).filter (!·.isDeclaration) =
      workspace.usagesIn keyword file := by
    apply List.filter_eq_self.2
    intro usage husage
    obtain ⟨use, -, rfl⟩ := List.mem_map.1 husage
    rfl
  have hdeclaration : (if withDeclaration then
      [(⟨keyword.origin.path?, keyword.location, true⟩ : Usage)] else []).filter
        (!·.isDeclaration) = [] := by
    cases withDeclaration <;> rfl
  rw [usages, List.filter_append, hdeclaration, List.nil_append, List.filter_flatMap, places,
    List.map_flatMap]
  refine List.flatMap_congr fun file _ => ?_
  rw [hfiles, usagesIn, Suite.keywordUses_eq, List.map_map]
  congr 1
  refine List.filter_congr fun use _ => ?_
  exact Bool.eq_iff_iff.2 ((h.any_beq_iff hkeyword use _).trans decide_eq_true_iff.symm)

end

/-- No place is listed twice: within a file the locations differ, and otherwise the paths. -/
theorem pairwise_places (operations : List Operation) (keyword : KeywordSymbol) :
    ((run operations).places keyword).Pairwise fun a b =>
      a.1.path.components ≠ b.1.path.components ∨ a.2.location ≠ b.2.location := by
  refine List.pairwise_flatMap.2 ⟨fun file hfile => ?_, ?_⟩
  · obtain ⟨path, text, hread⟩ := exists_ofText_of_mem_run hfile
    have huses := SourceFile.pairwise_locations_of_ofText hread
    exact List.pairwise_map.2 ((huses.sublist List.filter_sublist).imp fun hne => .inr hne)
  · refine (tracks_run operations).pairwise_paths.imp fun {f g} hne a ha b hb => .inl ?_
    obtain ⟨use, -, rfl⟩ := List.mem_map.1 ha
    obtain ⟨other, -, rfl⟩ := List.mem_map.1 hb
    exact hne

theorem definitions_of_mem_uses {operations : List Operation} {file : SourceFile}
    (hfile : file ∈ (run operations).files) {use : Identifier}
    (huse : use ∈ (testSuite file.suite).uses) {position : Position}
    (hin : use.location.contains position = true) :
    (run operations).definitions file.path position =
      ((run operations).resolveKeyword use file.moduleName).map .ofKeyword := by
  obtain ⟨path, text, hread⟩ := exists_ofText_of_mem_run hfile
  simp only [definitions, (tracks_run operations).file?_path hfile,
    SourceFile.reference?_of_ofText hread huse hin]

/-- The usages of a keyword, its declaration apart, are the places whose names can mean it,
each once. From any position of such a place one is led to exactly the keywords that the
name can mean there, and so to the keyword itself. -/
theorem usages_agree_with_definitions (operations : List Operation) (keyword : KeywordSymbol)
    (hkeyword : keyword ∈ (run operations).symbols.keywords.items) (withDeclaration : Bool) :
    ((run operations).usages keyword withDeclaration).filter (!·.isDeclaration) =
      ((run operations).places keyword).map
        (fun place => ⟨some place.1.path, place.2.location, false⟩) ∧
    (((run operations).usages keyword withDeclaration).filter (!·.isDeclaration)).Pairwise
      (fun a b => (a == b) = false) ∧
    ∀ place ∈ (run operations).places keyword, ∀ position,
      place.2.location.contains position = true →
        (run operations).definitions place.1.path position =
          ((run operations).resolveKeyword place.2 place.1.moduleName).map .ofKeyword ∧
        .ofKeyword keyword ∈ (run operations).definitions place.1.path position := by
  have husages := (tracks_run operations).filter_usages hkeyword withDeclaration
  refine ⟨husages, ?_, fun place hplace position hin => ?_⟩
  · rw [husages, List.pairwise_map]
    exact (pairwise_places operations keyword).imp fun hne => Usage.beq_eq_false hne false
  · obtain ⟨hfile, huse, hmeans⟩ := mem_places.1 hplace
    have hdefinitions := definitions_of_mem_uses hfile huse hin
    exact ⟨hdefinitions, hdefinitions ▸ List.mem_map_of_mem hmeans⟩

/-- A template uses a keyword of its own file. -/
theorem usages_of_template_keyword :
    let path := Path.ofText "a.txt".toList
    let workspace := run [.addFile path "*Keyword\nA\n*Task\nT\n  [Template]  A".toList]
    let keyword : KeywordSymbol :=
      ⟨"A".toList, "a".toList, .file path, .parsed (.onLine 1 0 1), [], none⟩
    keyword ∈ workspace.symbols.keywords.items ∧
      workspace.usages keyword false = [⟨some path, .parsed (.onLine 4 14 15), false⟩] ∧
      .ofKeyword keyword ∈ workspace.definitions path ⟨4, 15⟩ := by
  intro path workspace keyword
  have hitems : workspace.symbols.keywords.items = [keyword] := by
    dsimp only [workspace, keyword, path]
    decide +kernel
  have husages : workspace.usages keyword false =
      [⟨some path, .parsed (.onLine 4 14 15), false⟩] := by
    dsimp only [workspace, keyword, path]
    decide +kernel
  have hkeyword : keyword ∈ workspace.symbols.keywords.items :=
    hitems ▸ List.mem_singleton_self keyword
  obtain ⟨hplaces, -, hdefinitions⟩ := usages_agree_with_definitions _ keyword hkeyword false
  have husage : ⟨some path, .parsed (.onLine 4 14 15), false⟩ ∈
      (workspace.usages keyword false).filter (!·.isDeclaration) := by
    rw [husages]
    exact List.mem_singleton_self _
  obtain ⟨place, hplace, hsame⟩ := List.mem_map.1 (hplaces ▸ husage)
  have hpath : place.1.path = path := Option.some.inj (congrArg Usage.path hsame)
  have hlocation : place.2.location = .parsed (.onLine 4 14 15) := congrArg Usage.location hsame
  have hin : place.2.location.contains ⟨4, 15⟩ = true := by
    rw [hlocation]
    rfl
  exact ⟨hkeyword, husages, hpath ▸ (hdefinitions place hplace _ hin).2⟩

end Workspace

end SuiteIndex
