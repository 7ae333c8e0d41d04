import SuiteIndex.Editor.Completion
import SuiteIndex.Proofs.Workspace.Groups
import SuiteIndex.Proofs.Workspace.Resolution

/-! # What completions mean

A keyword is suggested by its full name if its group is shown with the names of the modules,
and by its bare name otherwise. The full name means the keyword everywhere. The bare name
means it except in a module that has another keyword of this name; that cannot happen when
what is typed has no dot, because then all keywords of the name are in the group, or when
what is typed agrees with the name of the keyword's module.
-/

namespace SuiteIndex

deriving instance ReflBEq, LawfulBEq for Completion

section

variable {α : Type} [BEq α] [LawfulBEq α] {items held : List α} {a item : α}

theorem mem_addOnce : a ∈ addOnce held item ↔ a ∈ held ∨ a = item := by
  rw [addOnce]
  split
  · rename_i hin
    have hmem : item ∈ held := List.contains_iff_mem.1 hin
    constructor
    · exact .inl
    · rintro (hheld | rfl)
      · exact hheld
      · exact hmem
  · rw [List.mem_append, List.mem_singleton]

theorem mem_foldl_addOnce : a ∈ items.foldl addOnce held ↔ a ∈ held ∨ a ∈ items := by
  induction items generalizing held with
  | nil => simp
  | cons item items ih => rw [List.foldl_cons, ih, mem_addOnce, List.mem_cons, or_assoc]

end

namespace Workspace

variable {workspace : Workspace} {typed : Text} {group : KeywordGroup} {keyword : KeywordSymbol}

theorem ofKeyword_mem_completions (hgroup : group ∈ workspace.findKeywords typed)
    (hkeyword : keyword ∈ group.keywords) (htyped : Completion.startsReference typed = false) :
    .ofKeyword group.showModule keyword ∈ workspace.completions typed := by
  rw [completions, htyped, if_neg Bool.false_ne_true, mem_foldl_addOnce]
  exact .inr (List.mem_flatMap.2 ⟨group, hgroup, List.mem_map_of_mem hkeyword⟩)

/-- A group that shows no module although what is typed has no dot is the only keyword of
its name. -/
theorem exact_eq_singleton (hvalid : workspace.symbols.keywords.Valid)
    (hgroup : group ∈ workspace.findKeywords typed) (hkeyword : keyword ∈ group.keywords)
    (hdot : '.' ∉ typed) (hshow : group.showModule = false) :
    workspace.symbols.keywords.exact keyword.name = [keyword] := by
  have hshows := showModule_of_mem_findKeywords hgroup
  rw [hshow] at hshows
  have hlength : group.keywords.length ≤ 1 := by
    simpa using (Bool.or_eq_false_iff.1 hshows.symm).1
  rw [← keywords_eq_exact_of_no_dot hvalid hgroup hkeyword hdot]
  obtain ⟨first, hfirst⟩ := List.length_eq_one_iff.1
    (le_antisymm hlength (List.length_pos_of_mem hkeyword))
  rw [hfirst, List.mem_singleton] at hkeyword
  rw [hfirst, hkeyword]

theorem showModule_of_agree (hgroup : group ∈ workspace.findKeywords typed)
    (hkeyword : keyword ∈ group.keywords)
    (hagree : agree (Text.lower typed) (Text.lower keyword.moduleName) = true) :
    group.showModule = true := by
  rw [showModule_of_mem_findKeywords hgroup, showsModule, Bool.or_eq_true]
  exact .inr (List.any_eq_true.2 ⟨keyword, hkeyword, hagree⟩)

/-- Every keyword of a group is suggested unless what is typed starts like a reference. A
cell with the suggested label means the keyword exactly if the group is shown with the names
of the modules or no other keyword of the name is preferred to it. That is so in every module
if what is typed has no dot or agrees with the name of the keyword's module. -/
theorem mem_resolveKeyword_completion_iff (h : workspace.Reachable)
    (hgroup : group ∈ workspace.findKeywords typed) (hkeyword : keyword ∈ group.keywords)
    (hname : keyword.name ≠ []) (hdot : '.' ∉ keyword.name) (hmodule : keyword.moduleName ≠ [])
    (cell : Cell) (hcell : cell.content = (Completion.ofKeyword group.showModule keyword).label)
    (moduleName : Text) :
    (Completion.startsReference typed = false →
      .ofKeyword group.showModule keyword ∈ workspace.completions typed) ∧
    (keyword ∈ workspace.resolveKeyword (.ofCell cell) moduleName ↔
      group.showModule = true ∨
      Text.sameIgnoringAsciiCase keyword.moduleName moduleName = true ∨
      ∀ other ∈ workspace.symbols.keywords.exact keyword.name,
        Text.sameIgnoringAsciiCase other.moduleName moduleName = false) ∧
    ('.' ∉ typed ∨ agree (Text.lower typed) (Text.lower keyword.moduleName) = true →
      keyword ∈ workspace.resolveKeyword (.ofCell cell) moduleName) := by
  obtain ⟨modules, htracks⟩ := h.exists_tracks
  have hvalid := htracks.index.keywords.valid
  have hitem := mem_items_of_mem_findKeywords hvalid hgroup hkeyword
  have hmeans : keyword ∈ workspace.resolveKeyword (.ofCell cell) moduleName ↔
      group.showModule = true ∨
      Text.sameIgnoringAsciiCase keyword.moduleName moduleName = true ∨
      ∀ other ∈ workspace.symbols.keywords.exact keyword.name,
        Text.sameIgnoringAsciiCase other.moduleName moduleName = false := by
    cases hshow : group.showModule with
    | true =>
      have hfull : cell.content = keyword.fullName := by
        simpa [Completion.ofKeyword, hshow] using hcell
      simp [mem_resolveKeyword_of_fullName hvalid hitem hname hmodule hfull hdot]
    | false =>
      have hbare : cell.content = keyword.name := by
        simpa [Completion.ofKeyword, hshow] using hcell
      simpa using mem_resolveKeyword_of_name hvalid hitem hbare hdot
  refine ⟨ofKeyword_mem_completions hgroup hkeyword, hmeans, fun htyped => hmeans.2 ?_⟩
  rcases htyped with hplain | hagree
  · cases hshow : group.showModule with
    | true => exact .inl rfl
    | false =>
      rw [exact_eq_singleton hvalid hgroup hkeyword hplain hshow]
      cases hsame : Text.sameIgnoringAsciiCase keyword.moduleName moduleName <;> simp [hsame]
  · exact .inl (showModule_of_agree hgroup hkeyword hagree)

/-- With two keywords of one name each label means its own keyword, also in the module of the
other one. -/
theorem mem_resolveKeyword_ambiguous_completion :
    let library (name : Text) : LibraryDefinition := ⟨name, [], [⟨"F".toList, .list [], []⟩]⟩
    let keyword (name : Text) : KeywordSymbol :=
      ⟨"F".toList, name, .library name, .synthetic, [], none⟩
    let workspace := run [.addLibrary (library "A".toList), .addLibrary (library "B".toList)]
    let group : KeywordGroup := ⟨"F".toList, [keyword "A".toList, keyword "B".toList], true⟩
    let cell : Cell := ⟨"A.F".toList, .onLine 2 2 5⟩
    workspace.Reachable ∧ group ∈ workspace.findKeywords "f".toList ∧
      cell.content = (Completion.ofKeyword group.showModule (keyword "A".toList)).label ∧
      .ofKeyword group.showModule (keyword "A".toList) ∈ workspace.completions "f".toList ∧
      keyword "A".toList ∈ workspace.resolveKeyword (.ofCell cell) "B".toList := by
  intro library keyword workspace group cell
  have hreachable : workspace.Reachable := reachable_run _
  have hgroups : workspace.findKeywords "f".toList = [group] := by
    dsimp only [workspace, group, library, keyword]
    decide +kernel
  have hgroup : group ∈ workspace.findKeywords "f".toList :=
    hgroups ▸ List.mem_singleton_self group
  have hcell : cell.content = (Completion.ofKeyword group.showModule (keyword "A".toList)).label :=
    rfl
  obtain ⟨hsuggested, -, hmeant⟩ := mem_resolveKeyword_completion_iff hreachable hgroup
    List.mem_cons_self (by decide) (by decide) (by decide) cell hcell "B".toList
  exact ⟨hreachable, hgroup, hcell, hsuggested (by decide), hmeant (.inl (by decide))⟩

/-- A bare label that was suggested for the start of one module means the keyword of another
module there. -/
theorem resolveKeyword_completion_elsewhere :
    let workspace := run [.addFile (.ofText "common.txt".toList) "*Keyword\nF".toList,
      .addFile (.ofText "browser.txt".toList) "*Keyword\nF".toList]
    let keyword (name path : Text) : KeywordSymbol :=
      ⟨"F".toList, name, .file (.ofText path), .parsed (.onLine 1 0 1), [], none⟩
    let common := keyword "common".toList "common.txt".toList
    let browser := keyword "browser".toList "browser.txt".toList
    let typed : Text := "Com.F".toList
    let cell : Cell := ⟨(Completion.ofKeyword false common).label, .onLine 2 2 3⟩
    workspace.Reachable ∧ workspace.findKeywords typed = [⟨common.name, [common], false⟩] ∧
      workspace.completions typed = [.ofKeyword false common] ∧
      workspace.resolveKeyword (.ofCell cell) "browser".toList = [browser] ∧
      common ∉ workspace.resolveKeyword (.ofCell cell) "browser".toList := by
  intro workspace keyword common browser typed cell
  have hgroups : workspace.findKeywords typed = [⟨common.name, [common], false⟩] := by
    dsimp only [workspace, typed, common, keyword]
    decide +kernel
  have hlabels : workspace.completions typed = [.ofKeyword false common] := by
    rw [completions, hgroups]
    rfl
  have hmeant : workspace.resolveKeyword (.ofCell cell) "browser".toList = [browser] := by
    dsimp only [workspace, cell, common, browser, keyword]
    decide +kernel
  have hother : common ≠ browser :=
    fun heq => absurd (congrArg KeywordSymbol.moduleName heq) (by decide)
  have habsent : common ∉ workspace.resolveKeyword (.ofCell cell) "browser".toList := by
    rw [hmeant, List.mem_singleton]
    exact hother
  exact ⟨reachable_run _, hgroups, hlabels, hmeant, habsent⟩

end Workspace

end SuiteIndex
