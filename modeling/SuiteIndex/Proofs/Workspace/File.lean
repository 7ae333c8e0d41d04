import SuiteIndex.Workspace.File

/-! # Files that come from texts

A file that was read from a text holds the document of that text at its path. The path has an
extension and something stands before that, so the name of the module can be empty only because
the name of the file cannot be decoded.
-/

namespace SuiteIndex

namespace Path

theorem cutName_fst_ne_nil {name extension : Bytes} (h : (cutName name).2 = some extension) :
    (cutName name).1 ≠ [] := by
  unfold cutName at h ⊢
  split at h
  · cases h
  · rename_i stem _ hstem _
    exact hstem
  · cases h

/-- Where a path has an extension, its module is nameless only if its stem is not UTF-8. -/
theorem exists_stem_of_moduleName_eq_nil {path : Path} {extension : Text}
    (h : path.extension? = some extension) (hname : path.moduleName = []) :
    ∃ stem, path.stem? = some stem ∧ Bytes.text? stem = none := by
  obtain ⟨name, hfile, hrest⟩ := Option.bind_eq_some_iff.1 h
  obtain ⟨behind, hcut, -⟩ := Option.bind_eq_some_iff.1 hrest
  have hstem : path.stem? = some (cutName name).1 := by rw [stem?, hfile, Option.map_some]
  refine ⟨_, hstem, ?_⟩
  rw [moduleName, hstem, Option.bind_some] at hname
  cases htext : Bytes.text? (cutName name).1 with
  | none => rfl
  | some text =>
    rw [htext, Option.getD_some] at hname
    rw [Bytes.text?_eq_some_iff, hname] at htext
    exact absurd htext (cutName_fst_ne_nil hcut)

end Path

theorem Document.moduleName_of_read {language : Language} {name text : Text}
    {document : Document} (h : read language name text = .ok document) :
    document.moduleName = name := by
  cases language with
  | tabular =>
    unfold read at h
    cases hsuite : Suite.read name text with
    | ok suite =>
      rw [hsuite] at h
      cases h
      rfl
    | error cause =>
      rw [hsuite] at h
      cases h
  | python =>
    cases h
    rfl

namespace SourceFile

variable {path : Path} {text : Text} {file : SourceFile}

theorem exists_read_of_ofText (h : ofText path text = .ok file) :
    ∃ language document, path.language = .ok language ∧
      Document.read language path.moduleName text = .ok document ∧
      file = ofDocument path document := by
  unfold ofText Document.ofContent at h
  cases hlanguage : path.language with
  | error cause =>
    rw [hlanguage] at h
    cases h
  | ok language =>
    simp only [hlanguage, bind, Except.bind] at h
    cases hread : Document.read language path.moduleName text with
    | error cause =>
      rw [hread] at h
      cases h
    | ok document =>
      rw [hread] at h
      exact ⟨language, document, rfl, hread, (Except.ok.inj h).symm⟩

theorem path_of_ofText (h : ofText path text = .ok file) : file.path = path := by
  obtain ⟨language, document, -, -, rfl⟩ := exists_read_of_ofText h
  rfl

theorem moduleName_of_ofText (h : ofText path text = .ok file) :
    file.moduleName = path.moduleName := by
  obtain ⟨language, document, -, hread, rfl⟩ := exists_read_of_ofText h
  exact Document.moduleName_of_read hread

theorem exists_stem_of_ofText (h : ofText path text = .ok file) (hname : file.moduleName = []) :
    ∃ stem, file.path.stem? = some stem ∧ Bytes.text? stem = none := by
  rw [moduleName_of_ofText h] at hname
  obtain ⟨language, document, hlanguage, -, rfl⟩ := exists_read_of_ofText h
  cases hextension : path.extension? with
  | some extension => exact Path.exists_stem_of_moduleName_eq_nil hextension hname
  | none =>
    simp [Path.language, Path.extension, hextension] at hlanguage
    cases hlanguage

end SourceFile

end SuiteIndex
