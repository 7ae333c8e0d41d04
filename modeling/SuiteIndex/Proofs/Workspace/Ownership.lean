import SuiteIndex.Proofs.Text.Lowercase
import SuiteIndex.Proofs.Workspace.Acceptance
import SuiteIndex.Proofs.Workspace.Owners
import SuiteIndex.Proofs.Workspace.Reachable

/-! # Who owns a module name

A module name belongs to its library or to the file of that name that was added last, and to
nobody only if no module has it. Additions and removals keep this for every name, so the
owners of a reachable workspace are registered modules, and every module is found by its name.
The empty name is an exception: a file without a module name does not claim it, although it may
inherit it from a library.
-/

namespace SuiteIndex

namespace Module

/-- Modules are told apart by their names without regard to case. -/
def key (m : Module) : Text :=
  Text.lower m.name

@[simp] theorem key_file (file : SourceFile) : (Module.file file).key = file.key := rfl

@[simp] theorem key_library (library : Library) : (Module.library library).key = library.key := rfl

end Module

namespace Owners.Sorted

variable {owners : Owners}

theorem mem_iff (h : Sorted owners) {key : Text} {owner : Owner} :
    (key, owner) ∈ owners ↔ owners.lookup key = some owner := by
  have hfilter : (key, owner) ∈ owners ↔ (key, owner) ∈ owners.filter (·.1 = key) := by simp
  rw [hfilter, h.filter_eq]
  cases owners.lookup key <;> simp [eq_comm]

end Owners.Sorted

namespace Workspace

def modules (workspace : Workspace) : List Module :=
  workspace.files.map .file ++ workspace.libraries.map .library

theorem mem_modules_file {workspace : Workspace} {file : SourceFile} :
    .file file ∈ workspace.modules ↔ file ∈ workspace.files := by
  simp [modules]

theorem mem_modules_library {workspace : Workspace} {library : Library} :
    .library library ∈ workspace.modules ↔ library ∈ workspace.libraries := by
  simp [modules]

theorem Tracks.perm_modules {workspace : Workspace} {modules : List Module}
    (h : workspace.Tracks modules) : workspace.modules.Perm modules := by
  rw [Workspace.modules, ← h.files, ← h.libraries]
  clear h
  induction modules with
  | nil => exact .nil
  | cons m rest ih =>
    cases m with
    | file f => exact ih.cons (.file f)
    | library l => exact List.perm_middle.trans (ih.cons (.library l))

theorem Reachable.symbols_perm {workspace : Workspace} (h : workspace.Reachable) :
    workspace.symbols.keywords.items.Perm
      (workspace.modules.flatMap (·.symbols.keywords.items)) ∧
    workspace.symbols.vars.items.Perm (workspace.modules.flatMap (·.symbols.vars.items)) := by
  obtain ⟨modules, htracks⟩ := h.exists_tracks
  have hkeywords := htracks.index.keywords.items_perm htracks.index.valid_keywords
  have hvars := htracks.index.vars.items_perm htracks.index.valid_vars
  rw [List.flatMap_map] at hkeywords hvars
  exact ⟨hkeywords.trans (htracks.perm_modules.flatMap_right _).symm,
    hvars.trans (htracks.perm_modules.flatMap_right _).symm⟩

/-- The file of a module name that was added last. -/
def lastFile? (workspace : Workspace) (key : Text) : Option SourceFile :=
  workspace.files.reverse.find? (·.key = key)

/-- Who may own a module name. -/
inductive Rightful (workspace : Workspace) (key : Text) : Option Owner → Prop where
  | library {library : Library} (h : library ∈ workspace.libraries) (hkey : library.key = key) :
    Rightful workspace key (some (.library key))
  | file {file : SourceFile} (h : file ∈ workspace.files) (hkey : file.key = key)
      (hlast : key ≠ [] → workspace.lastFile? key = some file) :
    Rightful workspace key (some (.file file.path))
  | nobody (hlibraries : ∀ library ∈ workspace.libraries, library.key ≠ key)
      (hfiles : key ≠ [] → ∀ file ∈ workspace.files, file.key ≠ key) :
    Rightful workspace key none

theorem heir?_of_no_library {workspace : Workspace} {key : Text}
    (h : workspace.libraryOfKey? key = none) :
    workspace.heir? key = (workspace.lastFile? key).map fun file => .file file.path := by
  simp [heir?, h, lastFile?]

theorem rightful_heir? (workspace : Workspace) (key : Text) :
    workspace.Rightful key (workspace.heir? key) := by
  cases hlibrary : workspace.libraryOfKey? key with
  | some library =>
    simp only [heir?, hlibrary]
    exact .library (List.mem_of_find?_eq_some hlibrary) (by simpa using List.find?_some hlibrary)
  | none =>
    have hlibraries : ∀ library ∈ workspace.libraries, library.key ≠ key := by
      simpa [libraryOfKey?] using hlibrary
    rw [heir?_of_no_library hlibrary]
    cases hlast : workspace.lastFile? key with
    | some file =>
      have hmem := List.mem_reverse.1 (List.mem_of_find?_eq_some hlast)
      exact .file hmem (by simpa using List.find?_some hlast) fun _ => hlast
    | none =>
      have hfiles : ∀ file ∈ workspace.files, file.key ≠ key := by
        simpa [lastFile?] using hlast
      exact .nobody hlibraries fun _ => hfiles

namespace Rightful

variable {workspace changed : Workspace} {key : Text} {owner? : Option Owner}

theorem of_removed_file (h : workspace.Rightful key owner?) {front back : List SourceFile}
    {removed : SourceFile} (hfiles : workspace.files = front ++ removed :: back)
    (hchanged : changed.files = front ++ back)
    (hlibraries : changed.libraries = workspace.libraries)
    (hother : owner? ≠ some (.file removed.path)) : changed.Rightful key owner? := by
  cases h with
  | library h hkey => exact .library (hlibraries ▸ h) hkey
  | @file file h hkey hlast =>
    have hne : file ≠ removed := fun heq => hother (heq ▸ rfl)
    rw [hfiles] at h
    refine .file (by simpa [hchanged, hne] using h) hkey fun hnamed => ?_
    have hfound := hlast hnamed
    simp only [lastFile?, hfiles, hchanged, List.reverse_append, List.reverse_cons,
      List.find?_append, List.find?_singleton] at hfound ⊢
    by_cases hremoved : removed.key = key
    · cases hback : back.reverse.find? (·.key = key) with
      | some other => simpa [hback] using hfound
      | none =>
        have heq : removed = file := by simpa [hback, hremoved] using hfound
        exact absurd heq.symm hne
    · simpa [hremoved] using hfound
  | nobody hnone hfree =>
    refine .nobody (hlibraries ▸ hnone) fun hnamed file hfile => hfree hnamed file ?_
    rw [hchanged] at hfile
    rw [hfiles]
    exact List.Sublist.subset (by simp) hfile

theorem of_removed_library (h : workspace.Rightful key owner?) {removed : Text}
    (hfiles : changed.files = workspace.files)
    (hlibraries : changed.libraries = workspace.libraries.eraseP (·.key = removed))
    (hother : owner? ≠ some (.library removed)) : changed.Rightful key owner? := by
  cases h with
  | library h hkey =>
    have hne : key ≠ removed := fun heq => hother (heq ▸ rfl)
    refine .library ?_ hkey
    rw [hlibraries]
    exact (List.mem_eraseP_of_neg (by simpa [hkey] using hne)).2 h
  | file h hkey hlast => exact .file (hfiles ▸ h) hkey (by simpa [lastFile?, hfiles] using hlast)
  | nobody hnone hfree =>
    refine .nobody (fun library hlibrary => hnone library ?_) (hfiles ▸ hfree)
    rw [hlibraries] at hlibrary
    exact List.mem_of_mem_eraseP hlibrary

theorem of_added_file (h : workspace.Rightful key owner?) {added : SourceFile}
    (hfiles : changed.files = workspace.files ++ [added])
    (hlibraries : changed.libraries = workspace.libraries) (hkey : key ≠ [] → added.key ≠ key) :
    changed.Rightful key owner? := by
  cases h with
  | library h hlibrary => exact .library (hlibraries ▸ h) hlibrary
  | file h hfile hlast =>
    refine .file (hfiles ▸ List.mem_append_left _ h) hfile fun hnamed => ?_
    rw [← hlast hnamed]
    simp [lastFile?, hfiles, hkey hnamed]
  | nobody hnone hfree =>
    refine .nobody (hlibraries ▸ hnone) fun hnamed file hfile => ?_
    rw [hfiles, List.mem_append, List.mem_singleton] at hfile
    rcases hfile with hfile | rfl
    · exact hfree hnamed file hfile
    · exact hkey hnamed

theorem of_added_library (h : workspace.Rightful key owner?) {added : Library}
    (hfiles : changed.files = workspace.files)
    (hlibraries : changed.libraries = workspace.libraries ++ [added]) (hkey : added.key ≠ key) :
    changed.Rightful key owner? := by
  cases h with
  | library h hlibrary => exact .library (hlibraries ▸ List.mem_append_left _ h) hlibrary
  | file h hfile hlast => exact .file (hfiles ▸ h) hfile (by simpa [lastFile?, hfiles] using hlast)
  | nobody hnone hfree =>
    refine .nobody (fun library hlibrary => ?_) (hfiles ▸ hfree)
    rw [hlibraries, List.mem_append, List.mem_singleton] at hlibrary
    rcases hlibrary with hlibrary | rfl
    · exact hnone library hlibrary
    · exact hkey

end Rightful

theorem Tracks.key_of_rightful {workspace : Workspace} {modules : List Module}
    (h : workspace.Tracks modules) {file : SourceFile} (hfile : file ∈ workspace.files) {key : Text}
    (howner : workspace.Rightful key (some (.file file.path))) : file.key = key := by
  generalize hpath : file.path = path at howner
  cases howner with
  | @file other hother hkey _ =>
    have hfound := h.file?_path hother
    rw [← hpath, h.file?_path hfile] at hfound
    exact Option.some.inj hfound ▸ hkey

/-- Every module name has a rightful owner, or none if nobody may own it. -/
structure OwnedInTurn (workspace : Workspace) : Prop where
  sorted : workspace.owners.Sorted
  rightful : ∀ key, workspace.Rightful key (workspace.owners.lookup key)

namespace OwnedInTurn

variable {workspace : Workspace} {modules : List Module}

theorem empty : Workspace.empty.OwnedInTurn :=
  ⟨List.Pairwise.nil, fun _ => .nobody (by simp [Workspace.empty]) (by simp [Workspace.empty])⟩

theorem removeFile (h : workspace.OwnedInTurn) (htracks : workspace.Tracks modules) (path : Path) :
    (workspace.removeFile path).OwnedInTurn := by
  refine ⟨sorted_removeFile h.sorted path, fun key => ?_⟩
  cases hfind : workspace.file? path with
  | none =>
    rw [removeFile_of_none hfind]
    exact h.rightful key
  | some file =>
    obtain ⟨-, hlibraries, -⟩ := removeFile_of_some hfind
    obtain ⟨hpath, front, back, hsplit, hchanged⟩ := exists_split_removeFile hfind
    rw [lookup_removeFile hfind]
    split
    · exact rightful_heir? _ key
    · rename_i hkept
      refine (h.rightful key).of_removed_file hsplit hchanged hlibraries fun howner => hkept ?_
      -- If the removed file is the owner, then the name is its own and handed over.
      have hrightful := h.rightful key
      rw [howner] at hrightful
      have hkey := htracks.key_of_rightful (List.mem_of_find?_eq_some hfind) hrightful
      exact ⟨hkey.symm, isOwnedByFile_iff.2 ⟨file.path, hkey ▸ howner, hpath⟩⟩

theorem removeKey (h : workspace.OwnedInTurn) (key : Text) :
    (workspace.removeKey key).OwnedInTurn := by
  refine ⟨sorted_removeKey h.sorted key, fun k => ?_⟩
  cases hfind : workspace.libraryOfKey? key with
  | none =>
    rw [removeKey_of_none hfind]
    exact h.rightful k
  | some library =>
    obtain ⟨hfiles, hlibraries, -⟩ := removeKey_of_some hfind
    rw [lookup_removeKey hfind]
    split
    · exact rightful_heir? _ k
    · rename_i hkept
      refine (h.rightful k).of_removed_library hfiles hlibraries fun howner => hkept ?_
      have hrightful := h.rightful k
      rw [howner] at hrightful
      cases hrightful
      exact ⟨rfl, isOwnedByLibrary_iff.2 howner⟩

theorem addFile (h : workspace.OwnedInTurn) (htracks : workspace.Tracks modules)
    (file : SourceFile) : (workspace.addFile file).OwnedInTurn := by
  have hremoved := h.removeFile htracks file.path
  refine ⟨?_, fun key => ?_⟩
  · simp only [Workspace.addFile]
    split
    · exact hremoved.sorted
    · exact hremoved.sorted.set _ _
  · by_cases hname : file.moduleName = []
    · -- The file claims nothing, and only the empty name could be due to it.
      have howners : (workspace.addFile file).owners = (workspace.removeFile file.path).owners := by
        simp [Workspace.addFile, hname]
      rw [howners]
      refine (hremoved.rightful key).of_added_file rfl rfl fun hkey => ?_
      rw [SourceFile.key, hname]
      exact hkey.symm
    · have howners : (workspace.addFile file).owners =
          (workspace.removeFile file.path).owners.set file.key (.file file.path) := by
        simp [Workspace.addFile, hname]
      rw [howners, Owners.lookup_set]
      split
      · rename_i hkey
        exact .file (by simp [Workspace.addFile]) hkey.symm
          fun _ => by simp [lastFile?, Workspace.addFile, hkey]
      · rename_i hkey
        exact (hremoved.rightful key).of_added_file rfl rfl fun _ => Ne.symm hkey

theorem addLibrary (h : workspace.OwnedInTurn) (library : Library) :
    (workspace.addLibrary library).OwnedInTurn := by
  have hremoved := h.removeKey library.key
  refine ⟨hremoved.sorted.set _ _, fun key => ?_⟩
  simp only [Workspace.addLibrary, Owners.lookup_set]
  split
  · rename_i hkey
    subst hkey
    exact .library (by simp) rfl
  · rename_i hkey
    exact (hremoved.rightful key).of_added_library rfl rfl (Ne.symm hkey)

end OwnedInTurn

theorem OwnedInTurn.exists_owned {workspace : Workspace} {modules : List Module}
    (h : workspace.OwnedInTurn) (htracks : workspace.Tracks modules) {key : Text} {owner : Owner}
    (howner : workspace.owners.lookup key = some owner) :
    ∃ m ∈ workspace.modules, workspace.ownedModule? owner = some m ∧ m.key = key := by
  have hrightful := h.rightful key
  rw [howner] at hrightful
  cases hrightful with
  | @library library hmem hkey =>
    cases hfind : workspace.libraryOfKey? key with
    | none => exact absurd hkey (by simpa using List.find?_eq_none.1 hfind library hmem)
    | some found =>
      refine ⟨.library found, mem_modules_library.2 (List.mem_of_find?_eq_some hfind), ?_, ?_⟩
      · simp [ownedModule?, hfind]
      · simpa using List.find?_some hfind
  | @file file hmem hkey _ =>
    refine ⟨.file file, mem_modules_file.2 hmem, ?_, hkey⟩
    simp [ownedModule?, htracks.file?_path hmem]

theorem Reachable.ownedInTurn {workspace : Workspace} (h : workspace.Reachable) :
    workspace.OwnedInTurn := by
  induction h with
  | empty => exact .empty
  | addFile hbefore path document ih =>
    obtain ⟨modules, htracks⟩ := hbefore.exists_tracks
    exact ih.addFile htracks _
  | removeFile hbefore path ih =>
    obtain ⟨modules, htracks⟩ := hbefore.exists_tracks
    exact ih.removeFile htracks path
  | addLibrary _ definition ih => exact ih.addLibrary _
  | removeLibrary _ name ih => exact ih.removeKey _

namespace OwnedInTurn

variable {workspace : Workspace} {modules : List Module}

theorem exists_owner_of_library (h : workspace.OwnedInTurn) {library : Library}
    (hlibrary : library ∈ workspace.libraries) :
    ∃ owner, (library.key, owner) ∈ workspace.owners := by
  simp only [h.sorted.mem_iff]
  have hrightful := h.rightful library.key
  cases howner : workspace.owners.lookup library.key with
  | some owner => exact ⟨owner, rfl⟩
  | none =>
    rw [howner] at hrightful
    cases hrightful with
    | nobody hlibraries => exact absurd rfl (hlibraries library hlibrary)

theorem exists_owner_iff (h : workspace.OwnedInTurn) (htracks : workspace.Tracks modules)
    {key : Text} (hnamed : key ≠ []) :
    (∃ owner, (key, owner) ∈ workspace.owners) ↔ ∃ m ∈ workspace.modules, m.key = key := by
  constructor
  · rintro ⟨owner, hentry⟩
    obtain ⟨m, hm, -, hkey⟩ := h.exists_owned htracks (h.sorted.mem_iff.1 hentry)
    exact ⟨m, hm, hkey⟩
  · rintro ⟨m, hm, rfl⟩
    cases m with
    | library library => exact h.exists_owner_of_library (mem_modules_library.1 hm)
    | file file =>
      simp only [h.sorted.mem_iff, Module.key_file] at hnamed ⊢
      have hrightful := h.rightful file.key
      cases howner : workspace.owners.lookup file.key with
      | some owner => exact ⟨owner, rfl⟩
      | none =>
        rw [howner] at hrightful
        cases hrightful with
        | nobody _ hfiles => exact absurd rfl (hfiles hnamed file (mem_modules_file.1 hm))

theorem isSome_module?_iff (h : workspace.OwnedInTurn) (htracks : workspace.Tracks modules)
    (name : Text) :
    (workspace.module? name).isSome = true ↔
      ∃ owner, (Text.lower name, owner) ∈ workspace.owners := by
  simp only [h.sorted.mem_iff]
  cases howner : workspace.owners.lookup (Text.lower name) with
  | none => simp [module?, howner]
  | some owner =>
    obtain ⟨m, -, hm, -⟩ := h.exists_owned htracks howner
    simp [module?, howner, hm]

/-- The modules found by the start of their names are one for each entry of the owners, and
sorting puts them in the strict order of their keys. -/
theorem map_key_modulesAmong (h : workspace.OwnedInTurn) (htracks : workspace.Tracks modules)
    {entries : List (Text × Owner)} (hentries : entries.Perm workspace.owners) (start : Text) :
    ((workspace.modulesAmong entries start).map Module.key).Pairwise (· < ·) ∧
      ((workspace.modulesAmong entries start).map Module.key).Perm
        ((entries.map Prod.fst).filter (Text.startsWith (Text.lower start))) := by
  let found := (entries.filter fun entry => Text.startsWith (Text.lower start) entry.1).filterMap
    fun entry => (workspace.ownedModule? entry.2).map (entry.1, ·)
  have hsorted : workspace.modulesAmong entries start = (Text.sortOn Prod.fst found).map Prod.snd :=
    rfl
  have hkeys : found.map Prod.fst =
      (entries.map Prod.fst).filter (Text.startsWith (Text.lower start)) := by
    rw [List.map_filterMap, List.filter_map, ← List.filterMap_eq_map]
    refine List.filterMap_congr fun entry hentry => ?_
    have hlookup := h.sorted.mem_iff.1 (hentries.mem_iff.1 (List.mem_of_mem_filter hentry))
    obtain ⟨m, -, hm, -⟩ := h.exists_owned htracks hlookup
    simp [hm]
  have hown : ∀ pair ∈ Text.sortOn Prod.fst found, pair.2.key = pair.1 := by
    intro pair hpair
    obtain ⟨entry, hentry, hpair⟩ :=
      List.mem_filterMap.1 ((Text.sortOn_perm Prod.fst found).mem_iff.1 hpair)
    have hlookup := h.sorted.mem_iff.1 (hentries.mem_iff.1 (List.mem_of_mem_filter hentry))
    obtain ⟨m, -, hm, hkey⟩ := h.exists_owned htracks hlookup
    rw [hm] at hpair
    cases hpair
    exact hkey
  have hmap : (workspace.modulesAmong entries start).map Module.key =
      (Text.sortOn Prod.fst found).map Prod.fst := by
    rw [hsorted, List.map_map]
    exact List.map_congr_left hown
  have hperm : ((Text.sortOn Prod.fst found).map Prod.fst).Perm
      ((entries.map Prod.fst).filter (Text.startsWith (Text.lower start))) :=
    hkeys ▸ (Text.sortOn_perm Prod.fst found).map Prod.fst
  have hnodup : (entries.map Prod.fst).Nodup :=
    (hentries.map Prod.fst).nodup_iff.2 (List.pairwise_map.2 (h.sorted.imp ne_of_lt))
  rw [hmap]
  refine ⟨?_, hperm⟩
  exact (List.pairwise_map.2 (Text.pairwise_sortOn Prod.fst found)).imp₂ (fun _ _ => lt_of_le_of_ne)
    (hperm.nodup_iff.2 (hnodup.filter _))

end OwnedInTurn

theorem exists_stem_of_mem_run {operations : List Operation} {file : SourceFile}
    (h : file ∈ (run operations).files) (hname : file.moduleName = []) :
    ∃ stem, file.path.stem? = some stem ∧ Bytes.text? stem = none := by
  obtain ⟨path, text, hread⟩ := exists_ofText_of_mem_run h
  exact SourceFile.exists_stem_of_ofText hread hname

/-- After any sequence of operations every owner is a registered module of the name it owns, and
every registered module's name has an owner, unless the module is a file whose own name is not
UTF-8 and gives it the empty module name. So a look-up answers for exactly the names of registered
modules, and a search gives one module for each of the names that start like the text, in strict
order, whatever the order of the entries. Only the empty name may be missing there. -/
theorem run_owners_are_modules (operations : List Operation) {entries : List (Text × Owner)}
    (hentries : entries.Perm (run operations).owners) :
    let workspace := run operations
    (∀ entry ∈ entries, ∃ m ∈ workspace.modules,
      workspace.ownedModule? entry.2 = some m ∧ m.key = entry.1) ∧
    (∀ m ∈ workspace.modules, (∃ owner, (m.key, owner) ∈ entries) ∨
      ∃ file stem, m = .file file ∧ file.moduleName = [] ∧ file.path.stem? = some stem ∧
        Bytes.text? stem = none) ∧
    (∀ key, key ≠ [] →
      ((∃ owner, (key, owner) ∈ entries) ↔ ∃ m ∈ workspace.modules, m.key = key)) ∧
    (∀ name, (workspace.module? name).isSome = true ↔
      ∃ owner, (Text.lower name, owner) ∈ entries) ∧
    ∀ start, (∀ m ∈ workspace.modulesAmong entries start, m ∈ workspace.modules) ∧
      ((workspace.modulesAmong entries start).map Module.key).Pairwise (· < ·) ∧
      ∀ key, key ∈ (workspace.modulesAmong entries start).map Module.key ↔
        Text.startsWith (Text.lower start) key = true ∧ ∃ owner, (key, owner) ∈ entries := by
  intro workspace
  have htracks := tracks_run operations
  have howned := (reachable_run operations).ownedInTurn
  have hmem {key : Text} : (∃ owner, (key, owner) ∈ entries) ↔
      ∃ owner, (key, owner) ∈ workspace.owners := exists_congr fun _ => hentries.mem_iff
  have hentry : ∀ entry ∈ entries, ∃ m ∈ workspace.modules,
      workspace.ownedModule? entry.2 = some m ∧ m.key = entry.1 := fun entry hentry =>
    howned.exists_owned htracks (howned.sorted.mem_iff.1 (hentries.mem_iff.1 hentry))
  refine ⟨hentry, fun m hm => ?_, fun key hkey => ?_, fun name => ?_,
    fun start => ⟨fun m hm => ?_, (howned.map_key_modulesAmong htracks hentries start).1,
      fun key => ?_⟩⟩
  · by_cases hkey : m.key = []
    · cases m with
      | library library =>
        exact .inl (hmem.2 (howned.exists_owner_of_library (mem_modules_library.1 hm)))
      | file file =>
        have hname : file.moduleName = [] := of_not_not fun hname => Text.lower_ne_nil hname hkey
        obtain ⟨stem, hstem⟩ := exists_stem_of_mem_run (mem_modules_file.1 hm) hname
        exact .inr ⟨file, stem, rfl, hname, hstem⟩
    · exact .inl (hmem.2 ((howned.exists_owner_iff htracks hkey).2 ⟨m, hm, rfl⟩))
  · rw [hmem, howned.exists_owner_iff htracks hkey]
  · rw [hmem, howned.isSome_module?_iff htracks]
  · obtain ⟨pair, hpair, rfl⟩ := List.mem_map.1 hm
    obtain ⟨entry, hfound, hpair⟩ := List.mem_filterMap.1 (List.mem_mergeSort.1 hpair)
    obtain ⟨n, hn, hsome, -⟩ := hentry entry (List.mem_of_mem_filter hfound)
    rw [hsome] at hpair
    cases hpair
    exact hn
  · rw [(howned.map_key_modulesAmong htracks hentries start).2.mem_iff]
    simp [and_comm]

/-- Two files whose entries come in the other order, next to one without an entry. -/
theorem run_owners_of_three_files :
    let operations := [.addFile (.ofText "b.txt".toList) [],
      .addFile ⟨0xFF :: Text.utf8 ".robot".toList⟩ [], .addFile (.ofText "A.robot".toList) []]
    let entries := (run operations).owners.reverse
    entries.Perm (run operations).owners ∧ entries.map Prod.fst = ["b".toList, "a".toList] ∧
      ((run operations).module? "B".toList).isSome = true ∧
      (((run operations).modulesAmong entries []).map Module.key).Pairwise (· < ·) ∧
      ∀ key, key ∈ ((run operations).modulesAmong entries []).map Module.key ↔
        Text.startsWith [] key = true ∧ ∃ owner, (key, owner) ∈ entries := by
  intro operations entries
  have hperm : entries.Perm (run operations).owners := List.reverse_perm _
  have hkeys : entries.map Prod.fst = ["b".toList, "a".toList] := by
    simp only [entries, operations]
    decide +kernel
  obtain ⟨-, -, -, hmodule, hsearch⟩ := run_owners_are_modules operations hperm
  obtain ⟨-, hsorted, hmem⟩ := hsearch []
  have hb : Text.lower "B".toList ∈ entries.map Prod.fst := by
    rw [hkeys]
    decide
  obtain ⟨⟨key, owner⟩, hentry, heq⟩ := List.mem_map.1 hb
  exact ⟨hperm, hkeys, (hmodule _).2 ⟨owner, heq ▸ hentry⟩, hsorted, hmem⟩

/-- A file whose name is not UTF-8 is registered and owns nothing: nobody has its key, the empty
text, and a look-up finds nothing there. -/
theorem module?_of_undecodable_name :
    let path : Path := ⟨0xFF :: Text.utf8 ".robot".toList⟩
    let workspace := run [.addFile path []]
    ∃ m ∈ workspace.modules, m.key = Text.lower [] ∧
      (¬ ∃ owner, (m.key, owner) ∈ workspace.owners) ∧ (workspace.module? []).isSome = false := by
  intro path workspace
  have hlanguage : path.language = .ok .tabular := by rfl
  obtain ⟨file, hread⟩ := SourceFile.exists_ofText hlanguage []
  have hnameless : path.moduleName = [] := by
    simp only [path]
    decide +kernel
  have hname : file.moduleName = [] := (SourceFile.moduleName_of_ofText hread).trans hnameless
  have hadded : workspace = Workspace.empty.addFile file := by
    simp only [workspace, run, List.foldl, apply, hread]
  have howners : workspace.owners = [] := by
    simp [hadded, addFile, removeFile, file?, Workspace.empty, hname]
  have hmodule : workspace.module? [] = none := by simp [module?, howners]
  refine ⟨.file file, ?_, ?_, by simp [howners], by rw [hmodule, Option.isSome_none]⟩
  · simp [mem_modules_file, hadded, addFile]
  · rw [Module.key_file, SourceFile.key, hname]

end Workspace

end SuiteIndex
