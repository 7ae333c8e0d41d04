import SuiteIndex.Proofs.Workspace.Rebuild
import SuiteIndex.Proofs.Workspace.Undo

/-! # Adding again

A file or a library that is added once more is removed first: its symbols are retracted and
its name is handed over, perhaps to another module. Then it is registered as the last one, as
it was before, and takes its name again, so nothing that can be seen has changed.
-/

namespace SuiteIndex

theorem Module.unregister_register (m : Module) (modules : List Module) :
    unregister m.id (unregister m.id modules ++ [m]) = unregister m.id modules := by
  simp [unregister]

namespace Workspace

variable {workspace : Workspace} {modules : List Module} {file : SourceFile} {library : Library}

theorem Tracks.file?_removeFile (h : workspace.Tracks modules) (path : Path) :
    (workspace.removeFile path).file? path = none := by
  refine List.find?_eq_none.2 fun file hfile hpath => ?_
  have hm := (h.removeFile path).mem_files_iff.1 hfile
  have hid : (Module.file file).id = .file path.components :=
    congrArg ModuleId.file (of_decide_eq_true hpath)
  simpa [hid] using List.of_mem_filter hm

theorem addFile_removeFile (h : (workspace.removeFile file.path).file? file.path = none) :
    (workspace.removeFile file.path).addFile file = workspace.addFile file := by
  simp only [addFile, removeFile_of_none h]

theorem lookup_addFile (workspace : Workspace) (file : SourceFile) (key : Text) :
    (workspace.addFile file).owners.lookup key =
      if file.moduleName ≠ [] ∧ key = file.key then some (.file file.path)
      else (workspace.removeFile file.path).owners.lookup key := by
  by_cases hname : file.moduleName = []
  · simp [addFile, hname]
  · simp [addFile, hname, Owners.lookup_set]

theorem lookup_addLibrary (workspace : Workspace) (library : Library) (key : Text) :
    (workspace.addLibrary library).owners.lookup key =
      if key = library.key then some (.library library.key) else workspace.owners.lookup key := by
  simp only [addLibrary, Owners.lookup_set]
  by_cases hkey : key = library.key
  · simp [hkey]
  · cases hfind : workspace.libraryOfKey? library.key with
    | none => rw [removeKey_of_none hfind]
    | some old => simp [lookup_removeKey hfind, hkey]

theorem Tracks.addFile_again (h : workspace.Tracks modules)
    (hfile : file.symbols.From (.file file.path)) :
    ((workspace.addFile file).addFile file).Tracks
      (Module.unregister (.file file.path.components) modules ++ [.file file]) := by
  have hagain := (h.addFile hfile).addFile hfile
  rwa [show ModuleId.file file.path.components = (Module.file file).id from rfl,
    Module.unregister_register] at hagain

theorem Tracks.addLibrary_again (h : workspace.Tracks modules)
    (hlibrary : library.symbols.From (.library library.name)) :
    ((workspace.addLibrary library).addLibrary library).Tracks
      (Module.unregister (.library library.key) modules ++ [.library library]) := by
  have hagain := (h.addLibrary hlibrary).addLibrary hlibrary
  rwa [show ModuleId.library library.key = (Module.library library).id from rfl,
    Module.unregister_register] at hagain

theorem OwnedInTurn.owners_addFile_again (h : workspace.OwnedInTurn)
    (htracks : workspace.Tracks modules) (hfile : file.symbols.From (.file file.path)) :
    ((workspace.addFile file).addFile file).owners = (workspace.addFile file).owners := by
  have hfree := htracks.file?_removeFile file.path
  have hremoved := h.removeFile htracks file.path
  have htracked := htracks.removeFile file.path
  have hadded := h.addFile htracks file
  apply (hadded.addFile (htracks.addFile hfile) file).sorted.ext hadded.sorted
  intro key
  rw [lookup_addFile, lookup_addFile workspace]
  split
  · rfl
  · rename_i hkey
    rw [← addFile_removeFile hfree, lookup_undo hremoved htracked hfile hfree, if_neg hkey]

theorem OwnedInTurn.owners_addLibrary_again (h : workspace.OwnedInTurn) :
    ((workspace.addLibrary library).addLibrary library).owners =
      (workspace.addLibrary library).owners := by
  apply ((h.addLibrary library).addLibrary library).sorted.ext (h.addLibrary library).sorted
  intro key
  rw [lookup_addLibrary, lookup_addLibrary workspace]
  split <;> rfl

/-- Adding a file, or a library, a second time in a row changes nothing that can be seen. -/
theorem alike_add_again (h : workspace.Reachable) :
    (∀ path document,
      let added := workspace.addFile (.ofDocument path document)
      (added.addFile (.ofDocument path document)).Alike added) ∧
    ∀ definition,
      let added := workspace.addLibrary (.ofDefinition definition)
      (added.addLibrary (.ofDefinition definition)).Alike added := by
  obtain ⟨modules, htracks⟩ := h.exists_tracks
  have howned := h.ownedInTurn
  constructor
  · intro path document
    have hfile : (SourceFile.ofDocument path document).symbols.From (.file path) :=
      Symbols.from_ofSuite _ _ _
    exact (htracks.addFile_again hfile).alike (htracks.addFile hfile)
      (howned.owners_addFile_again htracks hfile)
  · intro definition
    have hlibrary : (Library.ofDefinition definition).symbols.From (.library definition.name) :=
      Symbols.from_ofSuite _ _ _
    exact (htracks.addLibrary_again hlibrary).alike (htracks.addLibrary hlibrary)
      howned.owners_addLibrary_again

/-- A file with two equal keywords comes back at another spelling of its path, where a library
and another file have the same name. -/
theorem alike_add_again_of_shared_name :
    let workspace := run [.addLibrary ⟨"c".toList, [], []⟩, .addFile (.ofText "a/c.txt".toList) [],
      .addFile (.ofText "b/c.txt".toList) []]
    let path := Path.ofText "a//c.txt".toList
    let find := UserKeyword.named ⟨none, "Find".toList, .synthetic⟩
    let document : Document := ⟨{ Suite.empty .synthetic with
      keywords? := some ⟨[find, find], .synthetic⟩ }, "C".toList, .tabular⟩
    let added := workspace.addFile (.ofDocument path document)
    workspace.Reachable ∧ added.files.length = 2 ∧ added.symbols.keywords.size = 2 ∧
      (added.addFile (.ofDocument path document)).Alike added := by
  intro workspace path find document added
  have hreachable : workspace.Reachable := reachable_run _
  refine ⟨hreachable, ?_, ?_, (alike_add_again hreachable).1 path document⟩
  · dsimp only [added, workspace, path, document]
    decide +kernel
  · dsimp only [added, workspace, path, document, find]
    decide +kernel

end Workspace

end SuiteIndex
