import SuiteIndex.Proofs.Suite.Enclosure
import SuiteIndex.Workspace.File

/-! # Which files are accepted

Tables of any sort make up a suite, and a script makes up one whatever it holds. So a file is
refused for its path alone: if that has no extension, or one that belongs to no language.
-/

namespace SuiteIndex

/-- Reading tables never fails: the settings that a function is given are those it accepts,
and none of them comes without cells. -/
theorem Suite.exists_ofTables (moduleName : Text) (tables : List Table) :
    ∃ suite, Suite.ofTables moduleName tables = .ok suite := by
  obtain ⟨suite, hsuite, -⟩ := foldlM_ok moduleName (.empty (.parsed (spanOf tables))) tables
  exact ⟨suite, hsuite⟩

theorem Document.exists_read (language : Language) (moduleName text : Text) :
    ∃ document, Document.read language moduleName text = .ok document := by
  cases language with
  | tabular =>
    obtain ⟨suite, hsuite⟩ := Suite.exists_ofTables moduleName (Table.read text)
    refine ⟨⟨suite, moduleName, .tabular⟩, ?_⟩
    rw [read, Suite.read, hsuite]
    rfl
  | python => exact ⟨_, rfl⟩

/-- Some languages have the extension exactly if it is one of theirs in lower case. -/
theorem Language.ofExtension?_eq_none_iff {extension : Text} :
    ofExtension? extension = none ↔
      Text.lower extension ∉ tabularExtensions ++ [pythonExtension] := by
  rw [List.mem_append, List.mem_singleton, not_or, ofExtension?]
  by_cases htabular : Text.lower extension ∈ tabularExtensions
  · simp [htabular]
  · simp [htabular]

namespace Path

variable {path : Path} {extension : Text}

theorem language_of_extension?_eq_none (h : path.extension? = none) :
    path.language = .error (.missingExtension path) := by
  rw [language, Path.extension, h]
  rfl

theorem language_of_unknown (h : path.extension? = some extension)
    (hunknown : Language.ofExtension? extension = none) :
    path.language = .error (.unsupportedExtension extension) := by
  simp [language, Path.extension, h, hunknown, bind, Except.bind]

theorem language_of_known {language : Language} (h : path.extension? = some extension)
    (hknown : Language.ofExtension? extension = some language) :
    path.language = .ok language := by
  simp [Path.language, Path.extension, h, hknown, bind, Except.bind, pure, Except.pure]

end Path

namespace SourceFile

variable {path : Path}

theorem exists_ofText {language : Language} (h : path.language = .ok language) (text : Text) :
    ∃ file, ofText path text = .ok file := by
  obtain ⟨document, hdocument⟩ := Document.exists_read language path.moduleName text
  refine ⟨ofDocument path document, ?_⟩
  simp [ofText, Document.ofContent, h, bind, Except.bind, hdocument]

theorem ofText_of_language_error {error : SourceError} (h : path.language = .error error)
    (text : Text) : ofText path text = .error (.ofSource path error) := by
  simp [ofText, Document.ofContent, h, bind, Except.bind]

/-- A file is read if its path has the extension of a language; otherwise it is refused,
and the error tells its path. -/
theorem ofText_cases (path : Path) (text : Text) :
    (∃ extension file, path.extension? = some extension ∧
      Text.lower extension ∈ Language.tabularExtensions ++ [Language.pythonExtension] ∧
        ofText path text = .ok file) ∨
    (path.extension? = none ∨ ∃ extension, path.extension? = some extension ∧
      Text.lower extension ∉ Language.tabularExtensions ++ [Language.pythonExtension]) ∧
        ofText path text = .error (.unsupportedExtension path) := by
  cases hextension : path.extension? with
  | none =>
    right
    exact ⟨.inl rfl, ofText_of_language_error (Path.language_of_extension?_eq_none hextension) text⟩
  | some extension =>
    cases hlanguage : Language.ofExtension? extension with
    | none =>
      right
      exact ⟨.inr ⟨extension, rfl, Language.ofExtension?_eq_none_iff.1 hlanguage⟩,
        ofText_of_language_error (Path.language_of_unknown hextension hlanguage) text⟩
    | some language =>
      left
      have hsupported : ¬Text.lower extension ∉ Language.tabularExtensions ++
          [Language.pythonExtension] := by
        rw [← Language.ofExtension?_eq_none_iff, hlanguage]
        exact Option.some_ne_none language
      obtain ⟨file, hfile⟩ := exists_ofText (Path.language_of_known hextension hlanguage) text
      exact ⟨extension, file, rfl, not_not.1 hsupported, hfile⟩

/-- Tables always make up a suite, and the text of a file is refused exactly if its path has
no extension or, whatever its case, none of the four known ones; the error then tells the
path. -/
theorem ofText_error_iff :
    (∀ moduleName tables, ∃ suite, Suite.ofTables moduleName tables = .ok suite) ∧
    ∀ path text,
      ((∃ error, ofText path text = .error error) ↔
        path.extension? = none ∨ ∃ extension, path.extension? = some extension ∧
          Text.lower extension ∉
            ["robot".toList, "resource".toList, "txt".toList, "py".toList]) ∧
      ((∃ error, ofText path text = .error error) ↔
        ofText path text = .error (.unsupportedExtension path)) := by
  refine ⟨Suite.exists_ofTables, fun path text => ?_⟩
  rcases ofText_cases path text with ⟨extension, file, hextension, hknown, hfile⟩ | ⟨hpath, herror⟩
  · have hread : ¬∃ error, ofText path text = .error error := by simp [hfile]
    refine ⟨iff_of_false hread ?_, iff_of_false hread fun h => hread ⟨_, h⟩⟩
    rintro (hnone | ⟨other, hother, hunknown⟩)
    · exact Option.some_ne_none extension (hextension.symm.trans hnone)
    · obtain rfl := Option.some.inj (hextension.symm.trans hother)
      exact hunknown hknown
  · exact ⟨iff_of_true ⟨_, herror⟩ hpath, iff_of_true ⟨_, herror⟩ herror⟩

end SourceFile

end SuiteIndex
