import SuiteIndex.Proofs.Workspace.Registration

/-! # The index of a workspace over whole runs

Beside a workspace we keep the modules registered in it, in the order of their last
registration. After any sequence of operations the files and libraries of the workspace
are those modules, and its symbols are exactly theirs, module by module.
-/

namespace SuiteIndex

open SuiteIndex.Module (unregister unregister_of_forall_ne exists_split eraseP_filterMap)

theorem SourceFile.from_of_ofText {path : Path} {text : Text} {file : SourceFile}
    (h : SourceFile.ofText path text = .ok file) : file.symbols.From (.file file.path) := by
  unfold SourceFile.ofText at h
  split at h
  · cases h
    exact Symbols.from_ofSuite _ _ _
  · cases h

namespace Workspace

/-- A change of a workspace. Files come from texts and libraries from definitions. -/
inductive Operation where
  | addFile (path : Path) (text : Text)
  | removeFile (path : Path)
  | addLibrary (definition : LibraryDefinition)
  | removeLibrary (name : Text)
  | removeAllLibraries
  | clear

/-- The workspace after an operation. A text that cannot be read gives no file to add. -/
def apply (workspace : Workspace) : Operation → Workspace
  | .addFile path text => match SourceFile.ofText path text with
    | .ok file => workspace.addFile file
    | .error _ => workspace
  | .removeFile path => workspace.removeFile path
  | .addLibrary definition => workspace.addLibrary (.ofDefinition definition)
  | .removeLibrary name => workspace.removeLibrary name
  | .removeAllLibraries => workspace.removeAllLibraries
  | .clear => empty

/-- The workspace that a sequence of operations builds from the empty one. -/
def run (operations : List Operation) : Workspace :=
  operations.foldl apply empty

/-- What an operation means for the modules in the order of their last registration. -/
def Operation.register (modules : List Module) : Operation → List Module
  | .addFile path text => match SourceFile.ofText path text with
    | .ok file => unregister (.file file.path.components) modules ++ [.file file]
    | .error _ => modules
  | .removeFile path => unregister (.file path.components) modules
  | .addLibrary definition =>
    unregister (.library (Library.ofDefinition definition).key) modules ++
      [.library (.ofDefinition definition)]
  | .removeLibrary name => unregister (.library (Text.lower name)) modules
  | .removeAllLibraries => modules.filter (·.library?.isNone)
  | .clear => []

/-- The modules that are registered after a sequence of operations. -/
def registered (operations : List Operation) : List Module :=
  operations.foldl Operation.register []

@[simp] theorem reassign_files (workspace : Workspace) (key : Text) :
    (workspace.reassign key).files = workspace.files := by
  unfold reassign
  split <;> rfl

@[simp] theorem reassign_libraries (workspace : Workspace) (key : Text) :
    (workspace.reassign key).libraries = workspace.libraries := by
  unfold reassign
  split <;> rfl

@[simp] theorem reassign_symbols (workspace : Workspace) (key : Text) :
    (workspace.reassign key).symbols = workspace.symbols := by
  unfold reassign
  split <;> rfl

theorem removeFile_of_none {workspace : Workspace} {path : Path}
    (h : workspace.file? path = none) : workspace.removeFile path = workspace := by
  simp [removeFile, h]

theorem removeFile_of_some {workspace : Workspace} {path : Path} {file : SourceFile}
    (h : workspace.file? path = some file) :
    (workspace.removeFile path).files = workspace.files.eraseP (·.path == path) ∧
      (workspace.removeFile path).libraries = workspace.libraries ∧
      (workspace.removeFile path).symbols = workspace.symbols.retract file.symbols := by
  simp only [removeFile, h]
  split <;> simp

theorem exists_split_removeFile {workspace : Workspace} {path : Path} {file : SourceFile}
    (h : workspace.file? path = some file) :
    (file.path == path) = true ∧ ∃ front back, workspace.files = front ++ file :: back ∧
      (workspace.removeFile path).files = front ++ back := by
  obtain ⟨hpath, front, back, hsplit, hfront⟩ := List.find?_eq_some_iff_append.1 h
  refine ⟨hpath, front, back, hsplit, ?_⟩
  rw [(removeFile_of_some h).1, hsplit, List.eraseP_append_right _ (by simpa using hfront),
    List.eraseP_cons_of_pos (p := fun other : SourceFile => other.path == path) hpath]

theorem removeKey_of_none {workspace : Workspace} {key : Text}
    (h : workspace.libraryOfKey? key = none) : workspace.removeKey key = workspace := by
  simp [removeKey, h]

theorem removeKey_of_some {workspace : Workspace} {key : Text} {library : Library}
    (h : workspace.libraryOfKey? key = some library) :
    (workspace.removeKey key).files = workspace.files ∧
      (workspace.removeKey key).libraries = workspace.libraries.eraseP (·.key = key) ∧
      (workspace.removeKey key).symbols = workspace.symbols.retract library.symbols := by
  simp only [removeKey, h]
  split <;> simp

/-- The modules are the files and libraries of the workspace, and its symbols are theirs. -/
structure Tracks (workspace : Workspace) (modules : List Module) : Prop where
  files : modules.filterMap Module.file? = workspace.files
  libraries : modules.filterMap Module.library? = workspace.libraries
  index : workspace.symbols.Index modules

namespace Tracks

variable {workspace : Workspace} {modules : List Module}

theorem empty : Workspace.empty.Tracks [] :=
  ⟨rfl, rfl, Symbols.Index.empty⟩

theorem mem_files_iff (h : workspace.Tracks modules) {file : SourceFile} :
    file ∈ workspace.files ↔ Module.file file ∈ modules := by
  rw [← h.files, List.mem_filterMap]
  constructor
  · rintro ⟨m, hm, hfile⟩
    cases m with
    | file f => exact Option.some.inj hfile ▸ hm
    | library l => cases hfile
  · exact fun hm => ⟨_, hm, rfl⟩

theorem mem_libraries_iff (h : workspace.Tracks modules) {library : Library} :
    library ∈ workspace.libraries ↔ Module.library library ∈ modules := by
  rw [← h.libraries, List.mem_filterMap]
  constructor
  · rintro ⟨m, hm, hlibrary⟩
    cases m with
    | file f => cases hlibrary
    | library l => exact Option.some.inj hlibrary ▸ hm
  · exact fun hm => ⟨_, hm, rfl⟩

theorem pairwise_paths (h : workspace.Tracks modules) :
    workspace.files.Pairwise fun f g => f.path.components ≠ g.path.components := by
  rw [← h.files, List.pairwise_filterMap]
  refine (List.pairwise_map.1 h.index.nodup).imp fun {m n} hne f hf g hg heq => ?_
  cases m with
  | file _ =>
    cases n with
    | file _ =>
      cases hf
      cases hg
      exact hne (congrArg ModuleId.file heq)
    | library _ => cases hg
  | library _ => cases hf

theorem file?_path (h : workspace.Tracks modules) {file : SourceFile}
    (hfile : file ∈ workspace.files) :
    workspace.file? file.path = some file := by
  cases hfind : workspace.file? file.path with
  | none => simpa using List.find?_eq_none.1 hfind file hfile
  | some other =>
    have hpath : (other.path == file.path) = true :=
      List.find?_some (p := fun f : SourceFile => f.path == file.path) hfind
    have hnodup : (workspace.files.map fun f => f.path.components).Nodup :=
      List.pairwise_map.2 h.pairwise_paths
    rw [List.inj_on_of_nodup_map hnodup (List.mem_of_find?_eq_some hfind) hfile
      (of_decide_eq_true hpath)]

theorem unregister_of_file?_eq_none (h : workspace.Tracks modules) {path : Path}
    (hnone : workspace.file? path = none) :
    unregister (.file path.components) modules = modules := by
  refine unregister_of_forall_ne fun m hm hid => ?_
  cases m with
  | file f =>
    exact List.find?_eq_none.1 hnone f (h.mem_files_iff.2 hm)
      (decide_eq_true (ModuleId.file.inj hid))
  | library l => cases hid

theorem removeFile (h : workspace.Tracks modules) (path : Path) :
    (workspace.removeFile path).Tracks (unregister (.file path.components) modules) := by
  cases hfind : workspace.file? path with
  | none =>
    rw [removeFile_of_none hfind, h.unregister_of_file?_eq_none hfind]
    exact h
  | some file =>
    obtain ⟨hfiles, hlibraries, hsymbols⟩ := removeFile_of_some hfind
    have hpath : (file.path == path) = true :=
      List.find?_some (p := fun f : SourceFile => f.path == path) hfind
    have hid : (Module.file file).id = .file path.components :=
      congrArg ModuleId.file (of_decide_eq_true hpath)
    have hm := h.mem_files_iff.1 (List.mem_of_find?_eq_some hfind)
    obtain ⟨front, back, hsplit, hrest, hfront⟩ := exists_split h.index.nodup hm
    rw [← hid]
    refine ⟨?_, ?_, hsymbols ▸ h.index.retract hm⟩
    · rw [hfiles, ← h.files, hrest, hsplit]
      refine (eraseP_filterMap (p := fun f : SourceFile => f.path == path) rfl hpath
        fun n hn f hf hbeq => hfront n hn ?_).symm
      cases n with
      | file g =>
        cases hf
        exact (congrArg ModuleId.file (of_decide_eq_true hbeq)).trans hid.symm
      | library l => cases hf
    · rw [hlibraries, ← h.libraries, hrest, hsplit]
      simp [Module.library?, List.filterMap_cons]

theorem removeKey (h : workspace.Tracks modules) (key : Text) :
    (workspace.removeKey key).Tracks (unregister (.library key) modules) := by
  cases hfind : workspace.libraryOfKey? key with
  | none =>
    rw [removeKey_of_none hfind, unregister_of_forall_ne]
    · exact h
    · intro m hm hid
      cases m with
      | file f => cases hid
      | library l =>
        exact List.find?_eq_none.1 hfind l (h.mem_libraries_iff.2 hm)
          (decide_eq_true (ModuleId.library.inj hid))
  | some library =>
    obtain ⟨hfiles, hlibraries, hsymbols⟩ := removeKey_of_some hfind
    have hkey : decide (library.key = key) = true :=
      List.find?_some (p := fun l : Library => l.key = key) hfind
    have hid : (Module.library library).id = .library key :=
      congrArg ModuleId.library (of_decide_eq_true hkey)
    have hm := h.mem_libraries_iff.1 (List.mem_of_find?_eq_some hfind)
    obtain ⟨front, back, hsplit, hrest, hfront⟩ := exists_split h.index.nodup hm
    rw [← hid]
    refine ⟨?_, ?_, hsymbols ▸ h.index.retract hm⟩
    · rw [hfiles, ← h.files, hrest, hsplit]
      simp [Module.file?, List.filterMap_cons]
    · rw [hlibraries, ← h.libraries, hrest, hsplit]
      refine (eraseP_filterMap (p := fun l : Library => l.key = key) rfl hkey
        fun n hn l hl hbeq => hfront n hn ?_).symm
      cases n with
      | file g => cases hl
      | library k =>
        cases hl
        exact (congrArg ModuleId.library (of_decide_eq_true hbeq)).trans hid.symm

theorem addFile (h : workspace.Tracks modules) {file : SourceFile}
    (hfile : file.symbols.From (.file file.path)) :
    (workspace.addFile file).Tracks
      (unregister (.file file.path.components) modules ++ [.file file]) := by
  have hremoved := h.removeFile file.path
  refine ⟨?_, ?_, hremoved.index.merge (m := .file file) hfile
    (Module.nodup_register h.index.nodup (.file file))⟩
  · rw [List.filterMap_append, hremoved.files]
    rfl
  · rw [List.filterMap_append, hremoved.libraries]
    exact List.append_nil _

theorem addLibrary (h : workspace.Tracks modules) {library : Library}
    (hlibrary : library.symbols.From (.library library.name)) :
    (workspace.addLibrary library).Tracks
      (unregister (.library library.key) modules ++ [.library library]) := by
  have hremoved := h.removeKey library.key
  refine ⟨?_, ?_, hremoved.index.merge (m := .library library) hlibrary
    (Module.nodup_register h.index.nodup (.library library))⟩
  · rw [List.filterMap_append, hremoved.files]
    exact List.append_nil _
  · rw [List.filterMap_append, hremoved.libraries]
    rfl

theorem foldl_removeKey (h : workspace.Tracks modules) (keys : List Text) :
    (keys.foldl Workspace.removeKey workspace).Tracks
      (modules.filter fun m => ∀ key ∈ keys, m.id ≠ .library key) := by
  induction keys generalizing workspace modules with
  | nil => simpa using h
  | cons key keys ih =>
    have hrest := ih (h.removeKey key)
    rw [unregister, List.filter_filter] at hrest
    simpa [Bool.and_comm] using hrest

theorem removeAllLibraries (h : workspace.Tracks modules) :
    workspace.removeAllLibraries.Tracks (modules.filter (·.library?.isNone)) := by
  have hkept : (modules.filter fun m => ∀ key ∈ workspace.libraries.map Library.key,
      m.id ≠ .library key) = modules.filter (·.library?.isNone) := by
    apply List.filter_congr
    intro m hm
    cases m with
    | file f => simp [Module.id, Module.library?]
    | library l =>
      have hl := h.mem_libraries_iff.2 hm
      simpa [Module.id, Module.library?] using ⟨l, hl, rfl⟩
  exact hkept ▸ h.foldl_removeKey (workspace.libraries.map Library.key)

theorem apply (h : workspace.Tracks modules) (operation : Operation) :
    (workspace.apply operation).Tracks (operation.register modules) := by
  cases operation with
  | addFile path text =>
    simp only [Workspace.apply, Operation.register]
    cases hfile : SourceFile.ofText path text with
    | ok file => exact h.addFile (SourceFile.from_of_ofText hfile)
    | error cause => exact h
  | removeFile path => exact h.removeFile path
  | addLibrary definition => exact h.addLibrary (Symbols.from_ofSuite _ _ _)
  | removeLibrary name => exact h.removeKey (Text.lower name)
  | removeAllLibraries => exact h.removeAllLibraries
  | clear => exact empty

theorem foldl (h : workspace.Tracks modules) (operations : List Operation) :
    (operations.foldl Workspace.apply workspace).Tracks
      (operations.foldl Operation.register modules) := by
  induction operations generalizing workspace modules with
  | nil => exact h
  | cons operation operations ih => exact ih (h.apply operation)

end Tracks

theorem tracks_run (operations : List Operation) :
    (run operations).Tracks (registered operations) :=
  Tracks.empty.foldl operations

theorem exists_ofText_of_mem_register {modules : List Module}
    (h : ∀ file, .file file ∈ modules → ∃ path text, SourceFile.ofText path text = .ok file)
    (operation : Operation) {file : SourceFile}
    (hfile : Module.file file ∈ operation.register modules) :
    ∃ path text, SourceFile.ofText path text = .ok file := by
  cases operation with
  | addFile path text =>
    simp only [Operation.register] at hfile
    cases hread : SourceFile.ofText path text with
    | error cause => exact h file (by simpa [hread] using hfile)
    | ok added =>
      rw [hread] at hfile
      rcases List.mem_append.1 hfile with hkept | hadded
      · exact h file (List.mem_of_mem_filter hkept)
      · cases List.mem_singleton.1 hadded
        exact ⟨path, text, hread⟩
  | removeFile path => exact h file (List.mem_of_mem_filter hfile)
  | addLibrary definition =>
    rcases List.mem_append.1 hfile with hkept | hadded
    · exact h file (List.mem_of_mem_filter hkept)
    · cases List.mem_singleton.1 hadded
  | removeLibrary name => exact h file (List.mem_of_mem_filter hfile)
  | removeAllLibraries => exact h file (List.mem_of_mem_filter hfile)
  | clear => cases hfile

theorem exists_ofText_of_mem_run {operations : List Operation} {file : SourceFile}
    (h : file ∈ (run operations).files) : ∃ path text, SourceFile.ofText path text = .ok file := by
  have hfold (modules : List Module) (operations : List Operation)
      (hmodules : ∀ file, .file file ∈ modules →
        ∃ path text, SourceFile.ofText path text = .ok file) (file : SourceFile)
      (hfile : .file file ∈ operations.foldl Operation.register modules) :
      ∃ path text, SourceFile.ofText path text = .ok file := by
    induction operations generalizing modules with
    | nil => exact hmodules file hfile
    | cons operation operations ih =>
      exact ih _ (fun _ => exists_ofText_of_mem_register hmodules operation) hfile
  exact hfold [] operations (by simp) file ((tracks_run operations).mem_files_iff.1 h)

/-- After any sequence of operations the registered modules are the files and libraries of
the workspace, the symbols of a name are those of the modules in the order of their last
registration, and nothing else is counted. -/
theorem run_symbols_eq_registered (operations : List Operation) :
    (registered operations).filterMap Module.file? = (run operations).files ∧
    (registered operations).filterMap Module.library? = (run operations).libraries ∧
    (∀ key, (run operations).symbols.keywords.exact key =
      (registered operations).flatMap fun m => m.symbols.keywords.exact key) ∧
    (run operations).symbols.keywords.size =
      ((registered operations).map fun m => m.symbols.keywords.size).sum ∧
    (∀ key, (run operations).symbols.vars.exact key =
      (registered operations).flatMap fun m => m.symbols.vars.exact key) ∧
    (run operations).symbols.vars.size =
      ((registered operations).map fun m => m.symbols.vars.size).sum := by
  have h := tracks_run operations
  refine ⟨h.files, h.libraries, fun key => ?_, ?_, fun key => ?_, ?_⟩
  · have hget := h.index.keywords.get_eq (Container.normalize key)
    rwa [List.flatMap_map] at hget
  · have hsize := h.index.keywords.size_eq h.index.valid_keywords
    rwa [List.map_map] at hsize
  · have hget := h.index.vars.get_eq (Container.normalize key)
    rwa [List.flatMap_map] at hget
  · have hsize := h.index.vars.size_eq h.index.valid_vars
    rwa [List.map_map] at hsize

end Workspace

end SuiteIndex
