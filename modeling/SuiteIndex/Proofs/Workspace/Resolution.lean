import SuiteIndex.Proofs.Suite.Wording
import SuiteIndex.Proofs.Text.Lowercase
import SuiteIndex.Proofs.Workspace.Reachable

/-! # What names mean

A cell is cut at its last dot, so the full name of a keyword is read as its module and its
name only if the name has no dot itself. Such a full name means the keyword wherever it
stands, whatever the dots in the name of the module. With a dot in its own name a keyword
is never meant by its full name: what stands behind the last dot is shorter than its name,
and the full name is longer.
-/

namespace SuiteIndex

namespace Workspace

variable {workspace : Workspace} {keyword : KeywordSymbol} {id : Identifier} {moduleName : Text}

/-- A choice falls on the items that satisfy a condition, and on a second list if none does. -/
theorem mem_filter_orElse {α : Type} {candidates others : List α} {p : α → Bool} {a : α} :
    a ∈ (if (candidates.filter p).isEmpty then others else candidates.filter p) ↔
      a ∈ candidates ∧ p a = true ∨ a ∈ others ∧ ∀ b ∈ candidates, p b = false := by
  by_cases hfar : ∀ b ∈ candidates, p b = false
  · have hnone : (candidates.filter p).isEmpty = true := by simpa using hfar
    rw [if_pos hnone]
    constructor
    · exact fun hother => .inr ⟨hother, hfar⟩
    · rintro (⟨hmem, hnear⟩ | ⟨hother, -⟩)
      · simp [hfar a hmem] at hnear
      · exact hother
  · have hsome : ¬ (candidates.filter p).isEmpty = true := by simpa using hfar
    rw [if_neg hsome, List.mem_filter]
    exact ⟨.inl, fun h => h.resolve_right fun hother => hfar hother.2⟩

theorem mem_prefer {α : Type} {moduleOf : α → Text} {candidates : List α} {a : α} :
    a ∈ prefer moduleOf moduleName candidates ↔ a ∈ candidates ∧
      (Text.sameIgnoringAsciiCase (moduleOf a) moduleName = true ∨
        ∀ b ∈ candidates, Text.sameIgnoringAsciiCase (moduleOf b) moduleName = false) :=
  mem_filter_orElse.trans and_or_left.symm

/-- Behind a qualifier a name means keywords of that module, or else the dot is taken for a
part of the name. -/
theorem mem_resolveKeyword_of_qualifier {qualifier : Text} (hid : id.qualifier = some qualifier) :
    keyword ∈ workspace.resolveKeyword id moduleName ↔
      keyword ∈ workspace.symbols.keywords.exact id.name ∧
        Text.sameIgnoringAsciiCase keyword.moduleName qualifier = true ∨
      keyword ∈ workspace.symbols.keywords.exact id.fullName ∧
        ∀ other ∈ workspace.symbols.keywords.exact id.name,
          Text.sameIgnoringAsciiCase other.moduleName qualifier = false := by
  rw [resolveKeyword, hid]
  exact mem_filter_orElse

theorem mem_resolveKeyword_of_plain (hid : id.qualifier = none) :
    keyword ∈ workspace.resolveKeyword id moduleName ↔
      keyword ∈ workspace.symbols.keywords.exact id.name ∧
        (Text.sameIgnoringAsciiCase keyword.moduleName moduleName = true ∨
          ∀ other ∈ workspace.symbols.keywords.exact id.name,
            Text.sameIgnoringAsciiCase other.moduleName moduleName = false) := by
  rw [resolveKeyword, hid]
  exact mem_prefer

section

variable {cell : Cell} (hvalid : workspace.symbols.keywords.Valid)
include hvalid

theorem not_mem_exact_of_longer {front name : Text} (hfront : front ≠ [])
    (hname : name = front ++ keyword.name) :
    keyword ∉ workspace.symbols.keywords.exact name := by
  rw [hvalid.mem_exact_iff, not_and]
  exact fun _ h => Text.lower_append_ne hfront keyword.name (hname ▸ h.symm)

theorem not_mem_exact_of_shorter {front name : Text} (hfront : front ≠ [])
    (hname : keyword.name = front ++ name) :
    keyword ∉ workspace.symbols.keywords.exact name := by
  rw [hvalid.mem_exact_iff, not_and]
  exact fun _ h => Text.lower_append_ne hfront name (hname ▸ h)

theorem mem_exact_name (hkeyword : keyword ∈ workspace.symbols.keywords.items) :
    keyword ∈ workspace.symbols.keywords.exact keyword.name :=
  hvalid.mem_exact_iff.2 ⟨hkeyword, rfl⟩

theorem mem_resolveKeyword_of_fullName (hkeyword : keyword ∈ workspace.symbols.keywords.items)
    (hname : keyword.name ≠ []) (hmodule : keyword.moduleName ≠ [])
    (hcell : cell.content = keyword.fullName) (hdot : '.' ∉ keyword.name) :
    keyword ∈ workspace.resolveKeyword (.ofCell cell) moduleName := by
  have hcut : cell.content = keyword.moduleName ++ '.' :: keyword.name := by
    simp [hcell, KeywordSymbol.fullName, hmodule]
  have hread := Identifier.ofCell_of_last_dot hcut hdot
  rw [if_neg (by simp [hname, hmodule])] at hread
  rw [hread, mem_resolveKeyword_of_qualifier rfl]
  exact .inl ⟨mem_exact_name hvalid hkeyword, by simp⟩

/-- A bare name without a dot means a keyword of that name unless keywords of the module are
preferred to it. -/
theorem mem_resolveKeyword_of_name (hkeyword : keyword ∈ workspace.symbols.keywords.items)
    (hcell : cell.content = keyword.name) (hdot : '.' ∉ keyword.name) :
    keyword ∈ workspace.resolveKeyword (.ofCell cell) moduleName ↔
      Text.sameIgnoringAsciiCase keyword.moduleName moduleName = true ∨
        ∀ other ∈ workspace.symbols.keywords.exact keyword.name,
          Text.sameIgnoringAsciiCase other.moduleName moduleName = false := by
  rw [Identifier.ofCell_of_no_dot (hcell ▸ hdot), mem_resolveKeyword_of_plain rfl,
    Identifier.plain, hcell]
  exact and_iff_right (mem_exact_name hvalid hkeyword)

theorem not_mem_resolveKeyword_of_fullName (hmodule : keyword.moduleName ≠ [])
    (hcell : cell.content = keyword.fullName) (hdot : '.' ∈ keyword.name) :
    keyword ∉ workspace.resolveKeyword (.ofCell cell) moduleName := by
  obtain ⟨front, behind, hsplit, hbehind⟩ := Text.exists_last_mark hdot
  have hname : keyword.name = (front ++ ['.']) ++ behind := by
    simp [hsplit]
  have hlong : cell.content = (keyword.moduleName ++ ['.']) ++ keyword.name := by
    simp [hcell, KeywordSymbol.fullName, hmodule]
  have hcut : cell.content = (keyword.moduleName ++ '.' :: front) ++ '.' :: behind := by
    simp [hlong, hsplit]
  have hshorter : keyword ∉ workspace.symbols.keywords.exact behind :=
    not_mem_exact_of_shorter hvalid (by simp) hname
  have hlonger : keyword ∉ workspace.symbols.keywords.exact cell.content :=
    not_mem_exact_of_longer hvalid (by simp) hlong
  have hread := Identifier.ofCell_of_last_dot hcut hbehind
  split at hread
  · rw [hread, mem_resolveKeyword_of_plain rfl]
    exact fun hmem => hlonger hmem.1
  · rw [← Identifier.fullName_ofCell, hread] at hlonger
    rw [hread, mem_resolveKeyword_of_qualifier rfl]
    rintro (⟨hmem, -⟩ | ⟨hmem, -⟩)
    · exact hshorter hmem
    · exact hlonger hmem

end

/-- A cell with the full name of a keyword means the keyword, among others perhaps, exactly
if the name of the keyword has no dot. The name of its module may have dots, and it does not
matter where the cell stands. -/
theorem mem_resolveKeyword_fullName_iff (h : workspace.Reachable)
    (hkeyword : keyword ∈ workspace.symbols.keywords.items) (hname : keyword.name ≠ [])
    (hmodule : keyword.moduleName ≠ []) (cell : Cell) (hcell : cell.content = keyword.fullName)
    (moduleName : Text) :
    keyword ∈ workspace.resolveKeyword (.ofCell cell) moduleName ↔ '.' ∉ keyword.name := by
  obtain ⟨modules, htracks⟩ := h.exists_tracks
  have hvalid := htracks.index.keywords.valid
  constructor
  · exact fun hmem hdot => not_mem_resolveKeyword_of_fullName hvalid hmodule hcell hdot hmem
  · exact mem_resolveKeyword_of_fullName hvalid hkeyword hname hmodule hcell

/-- The name of a module may have a dot. -/
theorem mem_resolveKeyword_dotted_module :
    let workspace := run [.addLibrary ⟨"My.L".toList, [], [⟨"Log".toList, .list [], []⟩]⟩]
    let keyword : KeywordSymbol :=
      ⟨"Log".toList, "My.L".toList, .library "My.L".toList, .synthetic, [], none⟩
    let cell : Cell := ⟨"My.L.Log".toList, .onLine 2 2 10⟩
    workspace.Reachable ∧ keyword ∈ workspace.symbols.keywords.items ∧
      cell.content = keyword.fullName ∧
      keyword ∈ workspace.resolveKeyword (.ofCell cell) "t".toList := by
  intro workspace keyword cell
  have hreachable : workspace.Reachable := reachable_run _
  have hitems : workspace.symbols.keywords.items = [keyword] := by
    dsimp only [workspace, keyword]
    decide +kernel
  have hkeyword : keyword ∈ workspace.symbols.keywords.items :=
    hitems ▸ List.mem_singleton_self keyword
  have hcell : cell.content = keyword.fullName := rfl
  have hmeant := mem_resolveKeyword_fullName_iff hreachable hkeyword (by decide) (by decide)
    cell hcell "t".toList
  exact ⟨hreachable, hkeyword, hcell, hmeant.2 (by decide)⟩

/-- With a dot in the name of a keyword its full name may mean nothing. -/
theorem resolveKeyword_dotted_name :
    let workspace := run [.addLibrary ⟨"L".toList, [], [⟨"a.b".toList, .list [], []⟩]⟩]
    let keyword : KeywordSymbol :=
      ⟨"a.b".toList, "L".toList, .library "L".toList, .synthetic, [], none⟩
    let cell : Cell := ⟨keyword.fullName, .onLine 2 2 7⟩
    workspace.Reachable ∧ keyword ∈ workspace.symbols.keywords.items ∧ keyword.name ≠ [] ∧
      keyword.moduleName ≠ [] ∧ workspace.resolveKeyword (.ofCell cell) "t".toList = [] := by
  intro workspace keyword cell
  have hitems : workspace.symbols.keywords.items = [keyword] := by
    dsimp only [workspace, keyword]
    decide +kernel
  have hnothing : workspace.resolveKeyword (.ofCell cell) "t".toList = [] := by
    dsimp only [workspace, keyword, cell]
    decide +kernel
  exact ⟨reachable_run _, hitems ▸ List.mem_singleton_self keyword, by decide, by decide, hnothing⟩

end Workspace

end SuiteIndex
