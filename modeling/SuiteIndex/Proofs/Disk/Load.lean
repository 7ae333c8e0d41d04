import SuiteIndex.Proofs.Disk.Scan
import SuiteIndex.Proofs.Workspace.Acceptance
import SuiteIndex.Proofs.Workspace.Ownership
import SuiteIndex.Proofs.Workspace.Rebuild

/-! # Loading a folder file by file

A scan looks for extensions without regard to the case of ASCII letters, and all that it wants
belong to a language. So a file that it lists can only fail to be read from the disk. Such a file
is reported, and a version of it that the workspace already had stays as it was; all other files
are loaded, each in place of its earlier version.
-/

namespace SuiteIndex

namespace Workspace

variable {workspace : Workspace} {path : Path}

theorem libraries_removeFile (workspace : Workspace) (path : Path) :
    (workspace.removeFile path).libraries = workspace.libraries := by
  cases hfile : workspace.file? path with
  | none => rw [removeFile_of_none hfile]
  | some file => exact (removeFile_of_some hfile).2.1

theorem libraries_addFiles (workspace : Workspace) (files : List SourceFile) :
    (workspace.addFiles files).libraries = workspace.libraries := by
  induction files generalizing workspace with
  | nil => rfl
  | cons file files ih => exact (ih _).trans (libraries_removeFile workspace file.path)

theorem file?_addFile_of_ne {file : SourceFile} (h : file.path.components ≠ path.components) :
    (workspace.addFile file).file? path = workspace.file? path := by
  have hother : (workspace.removeFile file.path).file? path = workspace.file? path := by
    cases hfile : workspace.file? file.path with
    | none => rw [removeFile_of_none hfile]
    | some old =>
      obtain ⟨hpath, front, back, hsplit, hrest⟩ := exists_split_removeFile hfile
      have hold : old.path.components ≠ path.components := of_decide_eq_true hpath ▸ h
      simp [file?, hsplit, hrest, List.find?_append, Path.beq_eq_false hold]
  rw [← hother]
  simp [file?, addFile, List.find?_append, Path.beq_eq_false h]

theorem file?_addFiles_of_ne {files : List SourceFile}
    (h : ∀ file ∈ files, file.path.components ≠ path.components) :
    (workspace.addFiles files).file? path = workspace.file? path := by
  induction files generalizing workspace with
  | nil => rfl
  | cons file files ih =>
    rw [List.forall_mem_cons] at h
    exact (ih h.2).trans (file?_addFile_of_ne h.1)

theorem Reachable.addFiles (h : workspace.Reachable) {files : List SourceFile}
    (hfiles : ∀ file ∈ files, ∃ path document, file = .ofDocument path document) :
    (workspace.addFiles files).Reachable := by
  induction files generalizing workspace with
  | nil => exact h
  | cons file files ih =>
    rw [List.forall_mem_cons] at hfiles
    obtain ⟨path, document, rfl⟩ := hfiles.1
    exact ih (h.addFile path document) hfiles.2

theorem Reachable.file?_addFiles (h : workspace.Reachable) {files : List SourceFile}
    (hfiles : ∀ file ∈ files, ∃ path document, file = .ofDocument path document)
    (hpaths : files.Pairwise fun f g => f.path.components ≠ g.path.components)
    {file : SourceFile} (hfile : file ∈ files) :
    (workspace.addFiles files).file? file.path = some file := by
  induction files generalizing workspace with
  | nil => cases hfile
  | cons first files ih =>
    rw [List.forall_mem_cons] at hfiles
    rw [List.pairwise_cons] at hpaths
    obtain ⟨path, document, rfl⟩ := hfiles.1
    have hadded := h.addFile path document
    rcases List.mem_cons.1 hfile with rfl | hfile
    · obtain ⟨modules, htracks⟩ := hadded.exists_tracks
      refine (file?_addFiles_of_ne fun other hother => (hpaths.1 other hother).symm).trans ?_
      exact htracks.file?_path (List.mem_append_right _ (List.mem_singleton_self _))
    · exact ih hadded hfiles.2 hpaths.2 hfile

end Workspace

/-- What a scan picks up belongs to a language, although the scan has its own way to compare
extensions. -/
theorem ScanOptions.exists_language {path : Path} (h : default.accepts path = true) :
    ∃ language, path.language = .ok language := by
  unfold accepts at h
  split at h
  · rename_i extension hextension
    obtain ⟨wanted, hwanted, hsame⟩ := List.any_eq_true.1 h
    have hknown : ∀ wanted ∈ default.extensions, wanted.isAscii = true ∧
        Text.lower wanted ∈ Language.tabularExtensions ++ [Language.pythonExtension] := by
      decide
    obtain ⟨hascii, hmem⟩ := hknown wanted hwanted
    have hlower : Text.lower wanted = Text.lower extension :=
      (Text.sameIgnoringAsciiCase_iff hascii
        (Text.isAscii_of_sameIgnoringAsciiCase hascii hsame)).1 hsame
    cases hlanguage : Language.ofExtension? extension with
    | some language => exact ⟨language, Path.language_of_known hextension hlanguage⟩
    | none => exact absurd (hlower ▸ hmem) (Language.ofExtension?_eq_none_iff.1 hlanguage)
  · cases h

namespace Disk

section

variable {walk : Walk} {disk : Disk} {root path : Path} {workspace : Workspace}

theorem readText_of_file {bytes : ByteArray} (h : disk.find path = .ok (.file bytes)) :
    disk.readText path = decode bytes := by
  rw [readText, h]
  rfl

theorem decode_utf8Encode (text : Text) : decode text.utf8Encode = .ok text := by
  have hdecoded : String.fromUTF8? text.utf8Encode = some (.ofList text) :=
    Bytes.fromUTF8?_eq_some_iff.2 rfl
  rw [decode, hdecoded]
  exact congrArg Except.ok String.toList_ofList

theorem exists_loadFile_of_readText {language : Language} (h : path.language = .ok language)
    {text : Text} (htext : disk.readText path = .ok text) :
    ∃ file, SourceFile.ofText path text = .ok file ∧ disk.loadFile path = .ok file := by
  obtain ⟨file, hfile⟩ := SourceFile.exists_ofText h text
  refine ⟨file, hfile, ?_⟩
  simp [loadFile, load, h, htext, hfile, bind, Except.bind, Except.mapError]

theorem loadFile_of_readText_error {language : Language} (h : path.language = .ok language)
    {fault : Fault} (hfault : disk.readText path = .error fault) :
    disk.loadFile path = .error (.unreadable path fault) := by
  simp [loadFile, load, h, hfault, bind, Except.bind, Except.mapError]

theorem exists_readText_of_loadFile {file : SourceFile} (h : disk.loadFile path = .ok file) :
    ∃ text, disk.readText path = .ok text ∧ SourceFile.ofText path text = .ok file := by
  cases hlanguage : path.language with
  | error cause => simp [loadFile, hlanguage, bind, Except.bind, Except.mapError] at h
  | ok language =>
    cases htext : disk.readText path with
    | error fault => cases h.symm.trans (loadFile_of_readText_error hlanguage htext)
    | ok text =>
      obtain ⟨other, hother, hload⟩ := exists_loadFile_of_readText hlanguage htext
      obtain rfl := Except.ok.inj (hload.symm.trans h)
      exact ⟨text, rfl, hother⟩

/-- Why the file at a path cannot be read, if it cannot. -/
def failure? (disk : Disk) (path : Path) : Option WorkspaceError :=
  match disk.readText path with
  | .ok _ => none
  | .error fault => some (.unreadable path fault)

/-- The files that can be read from these paths. -/
def loadedFiles (disk : Disk) (paths : List Path) : List SourceFile :=
  (partitionResults (paths.map disk.loadFile)).1

theorem mem_loadedFiles {paths : List Path} {file : SourceFile} :
    file ∈ disk.loadedFiles paths ↔ ∃ path ∈ paths, disk.loadFile path = .ok file := by
  rw [loadedFiles, fst_partitionResults_map, List.mem_filterMap]
  exact exists_congr fun path => and_congr_right fun _ => toOption_eq_some_iff

theorem exists_document_of_mem_loadedFiles {paths : List Path} :
    ∀ file ∈ disk.loadedFiles paths, ∃ path document, file = .ofDocument path document := by
  intro file hfile
  obtain ⟨path, -, hload⟩ := mem_loadedFiles.1 hfile
  obtain ⟨text, -, htext⟩ := exists_readText_of_loadFile hload
  obtain ⟨-, document, -, -, rfl⟩ := SourceFile.exists_read_of_ofText htext
  exact ⟨path, document, rfl⟩

theorem path_of_loadFile {file : SourceFile} (h : disk.loadFile path = .ok file) :
    file.path = path := by
  obtain ⟨text, -, htext⟩ := exists_readText_of_loadFile h
  exact SourceFile.path_of_ofText htext

theorem pairwise_loadedFiles {paths : List Path}
    (h : paths.Pairwise fun p q => p.components ≠ q.components) :
    (disk.loadedFiles paths).Pairwise fun f g => f.path.components ≠ g.path.components := by
  rw [loadedFiles, fst_partitionResults_map, List.pairwise_filterMap]
  refine h.imp fun {p q} hne f hf g hg => ?_
  rw [path_of_loadFile (toOption_eq_some_iff.1 hf),
    path_of_loadFile (toOption_eq_some_iff.1 hg)]
  exact hne

theorem errors_eq {paths : List Path}
    (h : ∀ path ∈ paths, ∃ language, path.language = .ok language) :
    (partitionResults (paths.map disk.loadFile)).2 = paths.filterMap disk.failure? := by
  induction paths with
  | nil => rfl
  | cons path paths ih =>
    rw [List.forall_mem_cons] at h
    obtain ⟨language, hlanguage⟩ := h.1
    rw [List.map_cons]
    cases htext : disk.readText path with
    | ok text =>
      obtain ⟨file, -, hload⟩ := exists_loadFile_of_readText hlanguage htext
      simp [hload, ih h.2, failure?, htext]
    | error fault => simp [loadFile_of_readText_error hlanguage htext, ih h.2, failure?, htext]

/-- What came of loading the collected files one by one: each of them is read and takes the place
of its earlier version, or is reported and keeps it. -/
structure Loaded (disk : Disk) (paths : List Path) (workspace next : Workspace)
    (report : LoadReport) : Prop where
  ordered : paths.Pairwise Path.Precedes
  dispatched : ∀ path ∈ paths, ∃ language, path.language = .ok language
  read : ∀ path ∈ paths, ∀ text, disk.readText path = .ok text →
    ∃ file, SourceFile.ofText path text = .ok file ∧ next.file? path = some file
  kept : ∀ path ∈ paths, ∀ fault, disk.readText path = .error fault →
    next.file? path = workspace.file? path
  untouched : ∀ path, (∀ collected ∈ paths, collected.components ≠ path.components) →
    next.file? path = workspace.file? path
  /-- There is one version of each file. -/
  versions : next.files.Pairwise fun f g => f.path.components ≠ g.path.components
  libraries : next.libraries = workspace.libraries
  keywords : next.symbols.keywords.items.Perm (next.modules.flatMap (·.symbols.keywords.items))
  vars : next.symbols.vars.items.Perm (next.modules.flatMap (·.symbols.vars.items))
  /-- The files that cannot be read, each of them once. -/
  errors : report.errors = paths.filterMap disk.failure?
  counted : report.files + report.errors.length = paths.length

/-- The workspace after a folder was loaded into it. An error leaves it as it was. -/
def loadedInto (walk : Walk) (disk : Disk) (root : Path) (workspace : Workspace) : Workspace :=
  match disk.loadInto walk .default root workspace with
  | .ok (next, _) => next
  | .error _ => workspace

theorem loaded_addFiles (h : workspace.Reachable) {paths : List Path}
    (hordered : paths.Pairwise Path.Precedes)
    (haccepted : ∀ path ∈ paths, ScanOptions.default.accepts path = true) :
    disk.Loaded paths workspace (workspace.addFiles (disk.loadedFiles paths))
      ⟨(disk.loadedFiles paths).length, 0, (partitionResults (paths.map disk.loadFile)).2⟩ := by
  have hpaths := hordered.imp Path.Precedes.components_ne
  have hdispatched : ∀ path ∈ paths, ∃ language, path.language = .ok language :=
    fun path hpath => ScanOptions.exists_language (haccepted path hpath)
  have hdocuments : ∀ file ∈ disk.loadedFiles paths,
      ∃ path document, file = .ofDocument path document := exists_document_of_mem_loadedFiles
  have hreachable := h.addFiles hdocuments
  obtain ⟨modules, htracks⟩ := hreachable.exists_tracks
  obtain ⟨hkeywords, hvars⟩ := hreachable.symbols_perm
  refine
    { ordered := hordered
      dispatched := hdispatched
      read := fun path hpath text htext => ?read
      kept := fun path hpath fault hfault => ?kept
      untouched := fun path hother => ?untouched
      versions := htracks.pairwise_paths
      libraries := Workspace.libraries_addFiles _ _
      keywords := hkeywords
      vars := hvars
      errors := errors_eq hdispatched
      counted := ?counted }
  case read =>
    obtain ⟨language, hlanguage⟩ := hdispatched path hpath
    obtain ⟨file, hfile, hload⟩ := exists_loadFile_of_readText hlanguage htext
    have hfound := h.file?_addFiles hdocuments (pairwise_loadedFiles hpaths)
      (mem_loadedFiles.2 ⟨path, hpath, hload⟩)
    exact ⟨file, hfile, path_of_loadFile hload ▸ hfound⟩
  case kept =>
    -- A loaded file at the same path would be the one that cannot be read.
    refine Workspace.file?_addFiles_of_ne fun file hfile hsame => ?_
    obtain ⟨other, hother, hload⟩ := mem_loadedFiles.1 hfile
    obtain ⟨text, htext, -⟩ := exists_readText_of_loadFile hload
    rw [path_of_loadFile hload] at hsame
    obtain rfl := List.inj_on_of_nodup_map (List.pairwise_map.2 hpaths) hother hpath hsame
    cases htext.symm.trans hfault
  case untouched =>
    refine Workspace.file?_addFiles_of_ne fun file hfile => ?_
    obtain ⟨collected, hcollected, hload⟩ := mem_loadedFiles.1 hfile
    rw [path_of_loadFile hload]
    exact hother collected hcollected
  case counted => rw [loadedFiles, length_partitionResults, List.length_map]

theorem loadInto_of_collect {options : ScanOptions} {paths : List Path}
    (h : disk.collect walk options root = .ok paths) :
    disk.loadInto walk options root workspace = .ok (workspace.addFiles (disk.loadedFiles paths),
      ⟨(disk.loadedFiles paths).length, 0, (partitionResults (paths.map disk.loadFile)).2⟩) := by
  rw [loadInto, h]
  rfl

theorem collect_of_not_folder {options : ScanOptions}
    (h : ∀ entry, disk.find root = .ok entry → entry.kind ≠ .folder) :
    ∃ fault, disk.collect walk options root = .error (.unreadable root fault) := by
  cases hfind : disk.find root with
  | error fault =>
    refine ⟨fault, ?_⟩
    rw [collect, scan, hfind]
    rfl
  | ok entry =>
    refine ⟨.notAFolder, ?_⟩
    rw [collect, scan, hfind]
    simp only [bind, Except.bind, if_neg (h entry hfind)]
    rfl

/-- Loading what is not a folder fails and changes nothing. Otherwise the files that the scan
collects are loaded one by one, and those that cannot be read are reported in the order of their
paths: they neither keep the others out nor lose the version that the workspace already had. -/
theorem loadInto_isolates_failures (hwalk : walk.IsDepthFirst) (hdisk : disk.WellNamed)
    (h : workspace.Reachable) (root : Path) :
    ((∀ entry, disk.find root = .ok entry → entry.kind ≠ .folder) →
      (∃ fault, disk.loadInto walk .default root workspace = .error (.unreadable root fault)) ∧
      disk.loadedInto walk root workspace = workspace) ∧
    ∀ entry, disk.find root = .ok entry → entry.kind = .folder → ∃ paths next report,
      disk.collect walk .default root = .ok paths ∧
      disk.loadInto walk .default root workspace = .ok (next, report) ∧
      disk.loadedInto walk root workspace = next ∧ disk.Loaded paths workspace next report := by
  constructor
  · intro hroot
    obtain ⟨fault, hcollect⟩ :
        ∃ fault, disk.collect walk .default root = .error (.unreadable root fault) :=
      collect_of_not_folder hroot
    have hload : disk.loadInto walk .default root workspace = .error (.unreadable root fault) := by
      rw [loadInto, hcollect]
      rfl
    exact ⟨⟨fault, hload⟩, by rw [loadedInto, hload]⟩
  · intro entry hfind hkind
    have hordered : ((Visited.files (walk disk root (!ScanOptions.default.passesOver ·))).filter
        ScanOptions.default.accepts).Pairwise Path.Precedes :=
      (files_walk hwalk hdisk hfind hkind).1.filter _
    have hload : disk.loadInto walk .default root workspace = .ok (_, _) :=
      loadInto_of_collect (collect_of_folder hfind hkind)
    exact ⟨_, _, _, collect_of_folder hfind hkind, hload, by rw [loadedInto, hload],
      loaded_addFiles h hordered fun path hpath => (List.mem_filter.1 hpath).2⟩

end

/-- One of two files is no text. It is reported and stays as it was, while the other one takes the
place of its earlier version. A file is not a folder to load from. -/
theorem loadInto_isolates_bytes :
    let a := Path.ofText "/w/a.txt".toList
    let b := Path.ofText "/w/b.robot".toList
    let root := Path.ofText "/w".toList
    let text := "*** Keywords ***\nNew".toList
    let disk := ofEntries [(b, .file text.utf8Encode), (a, .file ⟨#[0xFF]⟩)]
    let workspace := Workspace.run [
      .addFile (.ofText "/w//b.robot".toList) "*** Keywords ***\nOld".toList,
      .addFile a "*** Keywords ***\nKept".toList]
    ∃ entry paths next report, walk.IsDepthFirst ∧ disk.WellNamed ∧ workspace.Reachable ∧
      disk.find root = .ok entry ∧ entry.kind = .folder ∧
      disk.loadInto walk .default root workspace = .ok (next, report) ∧
      disk.Loaded paths workspace next report ∧ a ∈ paths ∧ b ∈ paths ∧
      .unreadable a .notText ∈ report.errors ∧
      next.file? a = workspace.file? a ∧ (workspace.file? a).isSome = true ∧
      (∃ file, SourceFile.ofText b text = .ok file ∧ next.file? b = some file) ∧
      (∀ entry, disk.find a = .ok entry → entry.kind ≠ .folder) ∧
      disk.loadedInto walk a workspace = workspace := by
  intro a b root text disk workspace
  have hnamed : disk.WellNamed := wellNamed_ofEntries (by
    simp only [List.forall_mem_cons, List.not_mem_nil, false_imp_iff, implies_true, and_true]
    exact ⟨.closed nofun, .closed nofun⟩)
  have hreachable : workspace.Reachable := Workspace.reachable_run _
  have hfind : disk.find root = .ok (.folder [
      (Text.utf8 "b.robot".toList, .file text.utf8Encode),
      (Text.utf8 "a.txt".toList, .file ⟨#[0xFF]⟩)]) := by rfl
  have hfirst : disk.find a = .ok (.file ⟨#[0xFF]⟩) := by rfl
  have hsecond : disk.find b = .ok (.file text.utf8Encode) := by rfl
  have hbytes : disk.readText a = .error .notText :=
    (readText_of_file hfirst).trans (by decide +kernel)
  have htext : disk.readText b = .ok text :=
    (readText_of_file hsecond).trans (decode_utf8Encode text)
  obtain ⟨paths, next, report, hcollect, hload, -, hloaded⟩ :=
    (loadInto_isolates_failures isDepthFirst_walk hnamed hreachable root).2 _ hfind rfl
  have hcollected := Except.ok.inj ((collect_of_folder hfind rfl).symm.trans hcollect)
  have ha : a ∈ paths := hcollected ▸ (mem_collected_iff isDepthFirst_walk hnamed hfind rfl).2
    ⟨[], _, .folder (.tail _ (.head _)) (.file rfl), by rfl,
      ⟨"txt".toList, "txt".toList, Bytes.text?_utf8 _, by decide, by decide⟩, by decide +kernel⟩
  have hb : b ∈ paths := hcollected ▸ (mem_collected_iff isDepthFirst_walk hnamed hfind rfl).2
    ⟨[], _, .folder (.head _) (.file rfl), by rfl,
      ⟨"robot".toList, "robot".toList, Bytes.text?_utf8 _, by decide, by decide⟩, by decide +kernel⟩
  have herror : .unreadable a .notText ∈ report.errors := by
    rw [hloaded.errors]
    exact List.mem_filterMap.2 ⟨a, ha, by rw [failure?, hbytes]⟩
  have hkept : (workspace.file? a).isSome = true := by
    have hlanguage : a.language = .ok .tabular := by rfl
    obtain ⟨file, hfile⟩ := SourceFile.exists_ofText hlanguage "*** Keywords ***\nKept".toList
    obtain ⟨-, document, -, -, hread⟩ := SourceFile.exists_read_of_ofText hfile
    obtain ⟨before, hbefore, hadded⟩ : ∃ before : Workspace, before.Reachable ∧
        workspace = before.addFiles [file] := by
      refine ⟨Workspace.run [.addFile (.ofText "/w//b.robot".toList)
        "*** Keywords ***\nOld".toList], Workspace.reachable_run _, ?_⟩
      simp only [workspace, Workspace.run, List.foldl, Workspace.apply, hfile]
      rfl
    have hfound := hbefore.file?_addFiles (List.forall_mem_singleton.2 ⟨a, document, hread⟩)
      (List.pairwise_singleton _ _) (List.mem_singleton_self file)
    rw [hadded, ← SourceFile.path_of_ofText hfile, hfound, Option.isSome_some]
  have hnofolder : ∀ entry, disk.find a = .ok entry → entry.kind ≠ .folder := by
    rintro entry hentry
    cases hfirst.symm.trans hentry
    decide
  exact ⟨_, paths, next, report, isDepthFirst_walk, hnamed, hreachable, hfind, rfl, hload, hloaded,
    ha, hb, herror, hloaded.kept a ha _ hbytes, hkept, hloaded.read b hb _ htext, hnofolder,
    ((loadInto_isolates_failures isDepthFirst_walk hnamed hreachable a).1 hnofolder).2⟩

end Disk

end SuiteIndex
