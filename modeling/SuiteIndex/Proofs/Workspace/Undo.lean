import SuiteIndex.Proofs.Workspace.Ownership

/-! # Taking an addition back

Removing a file that was just added at a free path restores the files, the libraries and the
symbols. The name of its module goes back to the heir, which is the owner from before, except
that a library takes the name even if a file had shadowed it.
-/

namespace SuiteIndex

namespace Workspace

variable {workspace : Workspace} {modules : List Module} {file : SourceFile}

theorem file?_addFile (h : workspace.file? file.path = none) :
    (workspace.addFile file).file? file.path = some file := by
  simp only [file?, addFile, removeFile_of_none h, List.find?_append]
  rw [file?] at h
  simp [h]

theorem Tracks.undo (htracks : workspace.Tracks modules)
    (hfile : file.symbols.From (.file file.path)) (h : workspace.file? file.path = none) :
    ((workspace.addFile file).removeFile file.path).Tracks modules := by
  have hrestored := (htracks.addFile hfile).removeFile file.path
  have hnone := htracks.unregister_of_file?_eq_none h
  rw [hnone, Module.unregister, List.filter_append, ← Module.unregister, hnone] at hrestored
  simpa [Module.id] using hrestored

theorem OwnedInTurn.lookup_eq_heir? (h : workspace.OwnedInTurn) {key : Text} (hkey : key ≠ [])
    (hlibrary : workspace.libraryOfKey? key = none) :
    workspace.owners.lookup key = workspace.heir? key := by
  have hrightful := h.rightful key
  generalize workspace.owners.lookup key = owner? at hrightful
  rw [heir?_of_no_library hlibrary]
  cases hrightful with
  | @library library hmem hown =>
    exact absurd hown (by simpa using List.find?_eq_none.1 hlibrary library hmem)
  | file _ _ hlast => simp [hlast hkey]
  | nobody _ hfree =>
    have hlast : workspace.lastFile? key = none := by simpa [lastFile?] using hfree hkey
    simp [hlast]

theorem OwnedInTurn.isOwnedByFile_of_file?_eq_none (h : workspace.OwnedInTurn) {path : Path}
    (hnone : workspace.file? path = none) (key : Text) :
    workspace.isOwnedByFile key path = false := by
  by_contra howned
  obtain ⟨owner, howner, hpath⟩ := isOwnedByFile_iff.1 (Bool.not_eq_false _ ▸ howned)
  have hrightful := h.rightful key
  rw [howner] at hrightful
  cases hrightful with
  | @file file hfile _ _ => exact List.find?_eq_none.1 hnone file hfile hpath

/-- Only the name of the added file is handed over, and only if it is not empty. -/
theorem lookup_undo (howned : workspace.OwnedInTurn) (htracks : workspace.Tracks modules)
    (hfile : file.symbols.From (.file file.path)) (h : workspace.file? file.path = none)
    (key : Text) :
    ((workspace.addFile file).removeFile file.path).owners.lookup key =
      if file.moduleName ≠ [] ∧ key = file.key then workspace.heir? key
      else workspace.owners.lookup key := by
  have hrestored := htracks.undo hfile h
  have hheir : ((workspace.addFile file).removeFile file.path).heir? = workspace.heir? :=
    heir?_congr (hrestored.files.symm.trans htracks.files)
      (hrestored.libraries.symm.trans htracks.libraries)
  rw [lookup_removeFile (file?_addFile h), hheir]
  by_cases hname : file.moduleName = []
  · have howners : (workspace.addFile file).owners = workspace.owners := by
      simp [addFile, removeFile_of_none h, hname]
    have hother : (workspace.addFile file).isOwnedByFile file.key file.path = false := by
      rw [← howned.isOwnedByFile_of_file?_eq_none h file.key]
      simp only [isOwnedByFile, howners]
    simp [hother, hname, howners]
  · have howners : (workspace.addFile file).owners =
        workspace.owners.set file.key (.file file.path) := by
      simp [addFile, removeFile_of_none h, hname]
    have hown : (workspace.addFile file).isOwnedByFile file.key file.path = true :=
      isOwnedByFile_iff.2 ⟨file.path, by simp [howners, Owners.lookup_set], BEq.rfl⟩
    by_cases hkey : key = file.key
    · simp [hown, hname, hkey]
    · simp [hkey, howners, Owners.lookup_set]

/-- Adding a file at a free path and removing it again restores the files, the libraries and
the symbols in their order. Every name means the module from before, except that the name of
the file means the library of that name if there is one, also where a file had shadowed it. -/
theorem removeFile_addFile (h : workspace.Reachable) (path : Path) (document : Document)
    (hpath : workspace.file? path = none) :
    let restored := (workspace.addFile (.ofDocument path document)).removeFile path
    restored.files = workspace.files ∧
    restored.libraries = workspace.libraries ∧
    restored.symbols.keywords.items = workspace.symbols.keywords.items ∧
    restored.symbols.vars.items = workspace.symbols.vars.items ∧
    ∀ name, restored.module? name =
      if document.moduleName ≠ [] ∧ Text.lower name = Text.lower document.moduleName then
        ((workspace.library? name).map .library).or (workspace.module? name)
      else workspace.module? name := by
  intro restored
  obtain ⟨modules, htracks⟩ := h.exists_tracks
  have howned := h.ownedInTurn
  have hfrom : (SourceFile.ofDocument path document).symbols.From (.file path) :=
    Symbols.from_ofSuite _ _ _
  have hrestored : restored.Tracks modules := htracks.undo hfrom hpath
  have hfiles : restored.files = workspace.files := hrestored.files.symm.trans htracks.files
  have hlibraries : restored.libraries = workspace.libraries :=
    hrestored.libraries.symm.trans htracks.libraries
  refine ⟨hfiles, hlibraries, hrestored.index.keywords.items_eq htracks.index.keywords,
    hrestored.index.vars.items_eq htracks.index.vars, fun name => ?_⟩
  have hlookup : restored.owners.lookup (Text.lower name) =
      if document.moduleName ≠ [] ∧ Text.lower name = Text.lower document.moduleName then
        workspace.heir? (Text.lower name)
      else workspace.owners.lookup (Text.lower name) :=
    lookup_undo howned htracks hfrom hpath (Text.lower name)
  simp only [module?, hlookup, ownedModule?_congr hfiles hlibraries]
  by_cases hname : document.moduleName ≠ [] ∧ Text.lower name = Text.lower document.moduleName
  · have hne : Text.lower name ≠ [] := hname.2 ▸ Text.lower_ne_nil hname.1
    rw [if_pos hname, if_pos hname]
    cases hlibrary : workspace.libraryOfKey? (Text.lower name) with
    | some library => simp [library?, heir?, hlibrary, ownedModule?]
    | none => simp [library?, hlibrary, howned.lookup_eq_heir? hne hlibrary]
  · rw [if_neg hname, if_neg hname]

/-- A file gets its name back from another file of that name that comes and goes. -/
theorem removeFile_addFile_same_name :
    let workspace := run [.addFile (.ofText "a/c.txt".toList) []]
    let path := Path.ofText "b/c.txt".toList
    let document : Document := ⟨.empty .synthetic, "C".toList, .tabular⟩
    let restored := (workspace.addFile (.ofDocument path document)).removeFile path
    workspace.Reachable ∧ workspace.file? path = none ∧
      (workspace.module? "c".toList).isSome = true ∧
      restored.module? "c".toList = workspace.module? "c".toList := by
  intro workspace path document restored
  have hreachable : workspace.Reachable := reachable_run _
  have hpath : workspace.file? path = none := by
    dsimp only [workspace, path]
    decide +kernel
  have hmodule : (workspace.module? "c".toList).isSome = true := by
    dsimp only [workspace]
    decide +kernel
  have hlibrary : workspace.library? "c".toList = none := by
    dsimp only [workspace]
    decide +kernel
  obtain ⟨-, -, -, -, hname⟩ := removeFile_addFile hreachable path document hpath
  refine ⟨hreachable, hpath, hmodule, (hname "c".toList).trans ?_⟩
  rw [hlibrary, Option.map_none, Option.none_or, ite_self]

/-- A file that shadows a library loses its name to the library when another file of that
name comes and goes. -/
theorem module?_changed_by_undo :
    let workspace := run [.addLibrary ⟨"c".toList, [], []⟩, .addFile (.ofText "a/c.txt".toList) []]
    let path := Path.ofText "b/c.txt".toList
    ∃ file, SourceFile.ofText path [] = .ok file ∧ workspace.file? path = none ∧
      ((workspace.addFile file).removeFile path).module? "c".toList ≠
        workspace.module? "c".toList := by
  intro workspace path
  have hpath : workspace.file? path = none := by
    dsimp only [workspace, path]
    decide +kernel
  have hread : (SourceFile.ofText path []).toOption.isSome = true := by
    dsimp only [path]
    decide +kernel
  cases hfile : SourceFile.ofText path [] with
  | error cause => simp [hfile, Except.toOption] at hread
  | ok file =>
    refine ⟨file, rfl, hpath, fun hsame => ?_⟩
    have hrun : (workspace.addFile file).removeFile path = run [.addLibrary ⟨"c".toList, [], []⟩,
        .addFile (.ofText "a/c.txt".toList) [], .addFile path [], .removeFile path] := by
      simp [run, apply, hfile, workspace]
    have hbefore : ((workspace.module? "c".toList).bind Module.library?).isSome = false := by
      dsimp only [workspace]
      decide +kernel
    have hafter : (((run [.addLibrary ⟨"c".toList, [], []⟩, .addFile (.ofText "a/c.txt".toList) [],
        .addFile path [], .removeFile path]).module? "c".toList).bind
          Module.library?).isSome = true := by
      dsimp only [path]
      decide +kernel
    rw [← hsame, hrun, hafter] at hbefore
    cases hbefore

end Workspace

end SuiteIndex
