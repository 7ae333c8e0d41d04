import SuiteIndex.Proofs.Text.Lowercase
import SuiteIndex.Proofs.Workspace.Groups
import SuiteIndex.Proofs.Workspace.Reachable

/-! # What typing finds

The groups for what is typed hold the keywords of the workspace that match it, each as often as
it is stored, and nothing else. So the start of a keyword's name finds the keyword, with one
exception: a dot in it ends the start of a module name, even where it belongs to the name of the
keyword, and then the keyword is found only if its module is called like this.
-/

namespace SuiteIndex.Workspace

section

variable {workspace : Workspace} {keyword : KeywordSymbol}

theorem showsModule_iff {typed : Text} {members : List KeywordSymbol} :
    showsModule typed members = true ↔ 1 < members.length ∨ ∃ keyword ∈ members,
      Text.lower typed ≠ [] ∧ Text.lower keyword.moduleName ≠ [] ∧
        (Text.lower keyword.moduleName <+: Text.lower typed ∨
          Text.lower typed <+: Text.lower keyword.moduleName) := by
  simp [showsModule, agree, Text.startsWith, and_assoc]

/-- The groups come in the order of their names and cut the matching keywords of the workspace
into stretches of one name. A group is shown with the names of the modules if it has several
keywords, or if what is typed and the name of a module of its keywords agree as far as both
go. -/
theorem findKeywords_groups (h : workspace.Reachable) (typed : Text) :
    ∃ query : Query, query.typed = typed ∧
      ((workspace.findKeywords typed).Pairwise fun a b => Text.lower a.name < Text.lower b.name) ∧
      (∀ group ∈ workspace.findKeywords typed,
        group.keywords.head?.map KeywordSymbol.name = some group.name ∧
        (∀ keyword ∈ group.keywords, Text.lower keyword.name = Text.lower group.name) ∧
        (group.showModule = true ↔ 1 < group.keywords.length ∨ ∃ keyword ∈ group.keywords,
          Text.lower typed ≠ [] ∧ Text.lower keyword.moduleName ≠ [] ∧
            (Text.lower keyword.moduleName <+: Text.lower typed ∨
              Text.lower typed <+: Text.lower keyword.moduleName))) ∧
      (workspace.findKeywords typed).flatMap KeywordGroup.keywords =
        workspace.symbols.keywords.items.filter fun keyword => decide (query.Matches keyword) := by
  obtain ⟨modules, htracks⟩ := h.exists_tracks
  have hvalid := htracks.index.keywords.valid
  obtain ⟨query, rfl⟩ := Query.exists_typed typed
  refine ⟨query, rfl, pairwise_findKeywords hvalid _, fun group hgroup => ⟨?_, ?_, ?_⟩, ?_⟩
  · exact head?_of_mem_findKeywords hgroup
  · exact fun keyword => lower_name_of_mem_findKeywords hvalid hgroup
  · rw [showModule_of_mem_findKeywords hgroup, showsModule_iff]
  · rw [flatMap_findKeywords hvalid, matching_typed hvalid]

/-- Two files and a library have keywords of one name but for its case. -/
theorem findKeywords_groups_of_one_name :
    let find : KeywordDefinition := ⟨"FIND".toList, .list [], []⟩
    let workspace := run [.addFile (.ofText "common.txt".toList) "*Keyword\nFind\nFill".toList,
      .addFile (.ofText "browser.txt".toList) "*Keyword\nfind".toList,
      .addLibrary ⟨"Com".toList, [], [find]⟩]
    let typed : Text := "COM.fi".toList
    workspace.Reachable ∧ (workspace.findKeywords typed).map (fun group =>
        (group.name, group.keywords.map KeywordSymbol.fullName, group.showModule)) =
      [("Fill".toList, ["common.Fill".toList], false),
        ("Find".toList, ["common.Find".toList, "Com.FIND".toList], true)] ∧
    ∃ query : Query, query.typed = typed ∧
      (workspace.findKeywords typed).flatMap KeywordGroup.keywords =
        workspace.symbols.keywords.items.filter fun keyword => decide (query.Matches keyword) := by
  intro find workspace typed
  have hreachable : workspace.Reachable := reachable_run _
  obtain ⟨query, htyped, -, -, hitems⟩ := findKeywords_groups hreachable typed
  refine ⟨hreachable, ?_, query, htyped, hitems⟩
  dsimp only [workspace, typed, find]
  decide +kernel

theorem exists_group_iff (hvalid : workspace.symbols.keywords.Valid)
    (hitem : keyword ∈ workspace.symbols.keywords.items) (query : Query) :
    (∃ group ∈ workspace.findKeywords query.typed, keyword ∈ group.keywords) ↔
      query.Matches keyword := by
  rw [← List.mem_flatMap, flatMap_findKeywords hvalid, matching_typed hvalid, List.mem_filter,
    decide_eq_true_eq]
  exact and_iff_right hitem

/-- What has no dot in it finds a keyword exactly if its name starts like this in lower case. Only
where a word is broken off behind a capital sigma is that not so for every start of the name. -/
theorem exists_group_iff_of_no_dot (h : workspace.Reachable)
    (hitem : keyword ∈ workspace.symbols.keywords.items) {typed : Text} (hdot : '.' ∉ typed) :
    (∃ group ∈ workspace.findKeywords typed, keyword ∈ group.keywords) ↔
      Text.lower typed <+: Text.lower keyword.name := by
  obtain ⟨modules, htracks⟩ := h.exists_tracks
  refine (exists_group_iff htracks.index.keywords.valid hitem ⟨none, typed, hdot⟩).trans ?_
  simp [Query.Matches]

/-- The start of a keyword's name finds the keyword if there is no dot in it and it breaks no
word off behind a capital sigma. A start with a dot finds it exactly if the name of its module
starts like what stands before the last dot, and its own name like what stands behind. -/
theorem exists_group_of_start (h : workspace.Reachable)
    (hitem : keyword ∈ workspace.symbols.keywords.items) {start behind : Text}
    (hname : keyword.name = start ++ behind) :
    ('.' ∉ start → ¬ Text.BreaksWord start behind →
      ∃ group ∈ workspace.findKeywords start, keyword ∈ group.keywords) ∧
    ∀ moduleStart rest, start = moduleStart ++ '.' :: rest → '.' ∉ rest →
      ((∃ group ∈ workspace.findKeywords start, keyword ∈ group.keywords) ↔
        Text.lower moduleStart <+: Text.lower keyword.moduleName ∧
          Text.lower rest <+: Text.lower keyword.name) := by
  refine ⟨fun hdot hword => ?_, fun moduleStart rest hstart hrest => ?_⟩
  · rw [exists_group_iff_of_no_dot h hitem hdot, hname]
    exact Text.lower_prefix_append hword
  · obtain ⟨modules, htracks⟩ := h.exists_tracks
    rw [hstart]
    refine (exists_group_iff htracks.index.keywords.valid hitem
      ⟨some moduleStart, rest, hrest⟩).trans ?_
    simp [Query.Matches, and_comm]

/-- A name with a dot in it, in a module whose name starts like what stands before the dot. -/
theorem exists_group_of_dotted_start :
    let workspace := run [.addLibrary ⟨"Bar".toList, [], [⟨"b.b".toList, .list [], []⟩]⟩]
    let keyword : KeywordSymbol :=
      ⟨"b.b".toList, "Bar".toList, .library "Bar".toList, .synthetic, [], none⟩
    workspace.Reachable ∧ keyword ∈ workspace.symbols.keywords.items ∧
      keyword.name = "b".toList ++ ".b".toList ∧
      (∃ group ∈ workspace.findKeywords "b".toList, keyword ∈ group.keywords) ∧
      ∃ group ∈ workspace.findKeywords "b.b".toList, keyword ∈ group.keywords := by
  intro workspace keyword
  have hreachable : workspace.Reachable := reachable_run _
  have hitem : keyword ∈ workspace.symbols.keywords.items := by
    have hitems : workspace.symbols.keywords.items = [keyword] := by
      dsimp only [workspace, keyword]
      decide +kernel
    rw [hitems]
    exact List.mem_singleton_self keyword
  have hname : keyword.name = "b".toList ++ ".b".toList := by decide
  obtain ⟨hplain, -⟩ := exists_group_of_start hreachable hitem hname
  obtain ⟨-, hdotted⟩ := exists_group_of_start hreachable hitem (List.append_nil _).symm
  refine ⟨hreachable, hitem, hname, hplain (by decide) ?_, ?_⟩
  · exact Text.not_breaksWord_of_not_mem (by decide) _
  · exact (hdotted "b".toList "b".toList (by decide) (by decide)).2 (by decide)

set_option maxRecDepth 4000 in
/-- A whole name with a dot in it finds nothing, and neither does a start that breaks a word off
behind a capital sigma. -/
theorem findKeywords_start_eq_nil :
    let workspace := run [.addLibrary ⟨"L".toList, [],
      [⟨"a.b".toList, .list [], []⟩, ⟨"aΣa".toList, .list [], []⟩]⟩]
    let keyword (name : Text) : KeywordSymbol :=
      ⟨name, "L".toList, .library "L".toList, .synthetic, [], none⟩
    workspace.Reachable ∧
      workspace.symbols.keywords.items = [keyword "a.b".toList, keyword "aΣa".toList] ∧
      (keyword "a.b".toList).name <+: (keyword "a.b".toList).name ∧
      workspace.findKeywords "a.b".toList = [] ∧
      "aΣ".toList <+: (keyword "aΣa".toList).name ∧ workspace.findKeywords "aΣ".toList = [] := by
  intro workspace keyword
  refine ⟨reachable_run _, ?_, List.prefix_refl _, ?_, by decide, ?_⟩
  · dsimp only [workspace, keyword]
    decide +kernel
  · dsimp only [workspace]
    decide +kernel
  · dsimp only [workspace]
    decide +kernel

end

end SuiteIndex.Workspace
