import Mathlib.Data.List.Forall2
import SuiteIndex.Proofs.Workspace.File
import SuiteIndex.Proofs.Workspace.Owners
import SuiteIndex.Workspace.Edit

/-! # Edits and rebuilding

A workspace of files alone shows nothing of its history: its owners and the order of its
symbols are determined by the list of its files. So a workspace that was edited file by
file looks like the one that is built at once from the texts that survived the edits.
-/

namespace SuiteIndex

section

variable {ε α β : Type}

@[simp] theorem partitionResults_ok (a : α) (results : List (Except ε α)) :
    partitionResults (.ok a :: results) =
      (a :: (partitionResults results).1, (partitionResults results).2) := rfl

@[simp] theorem partitionResults_error (e : ε) (results : List (Except ε α)) :
    partitionResults (.error e :: results) =
      ((partitionResults results).1, e :: (partitionResults results).2) := rfl

theorem length_partitionResults (results : List (Except ε α)) :
    (partitionResults results).1.length + (partitionResults results).2.length =
      results.length := by
  induction results with
  | nil => rfl
  | cons result results ih =>
    cases result with
    | ok a =>
      simp only [partitionResults_ok, List.length_cons]
      omega
    | error e =>
      simp only [partitionResults_error, List.length_cons]
      omega

theorem toOption_eq_some_iff {result : Except ε α} {a : α} :
    result.toOption = some a ↔ result = .ok a := by
  cases result <;> simp [Except.toOption]

theorem fst_partitionResults_map (f : α → Except ε β) (l : List α) :
    (partitionResults (l.map f)).1 = l.filterMap fun a => (f a).toOption := by
  induction l with
  | nil => rfl
  | cons a l ih =>
    rw [List.map_cons]
    cases hresult : f a with
    | ok b => simp [ih, hresult, Except.toOption]
    | error e => simp [ih, hresult, Except.toOption]

end

namespace Workspace

/-- Two workspaces that no query tells apart. -/
structure Alike (a b : Workspace) : Prop where
  files : a.files = b.files
  libraries : a.libraries = b.libraries
  keywords : a.symbols.keywords.items = b.symbols.keywords.items
  vars : a.symbols.vars.items = b.symbols.vars.items
  module? : ∀ name, a.module? name = b.module? name
  modulesStartingWith : ∀ start, a.modulesStartingWith start = b.modulesStartingWith start

/-- The registered modules and the owners are all that can be seen of a workspace. -/
theorem Tracks.alike {a b : Workspace} {modules : List Module} (ha : a.Tracks modules)
    (hb : b.Tracks modules) (howners : a.owners = b.owners) : a.Alike b := by
  have hfiles : a.files = b.files := ha.files.symm.trans hb.files
  have hlibraries : a.libraries = b.libraries := ha.libraries.symm.trans hb.libraries
  have hmodule := ownedModule?_congr hfiles hlibraries
  refine ⟨hfiles, hlibraries, ha.index.keywords.items_eq hb.index.keywords,
    ha.index.vars.items_eq hb.index.vars, fun name => ?_, fun start => ?_⟩
  · simp only [module?, howners, hmodule]
  · simp only [modulesStartingWith, modulesAmong, howners, hmodule]

/-- A workspace of files alone, whose symbols are those of the files and whose module names
belong to the files that were added last. -/
structure OfFiles (workspace : Workspace) : Prop where
  owned : workspace.OwnedByLast
  tracks : workspace.Tracks (workspace.files.map .file)

theorem Tracks.eq_map_file {workspace : Workspace} {modules : List Module}
    (h : workspace.Tracks modules) (hlibraries : workspace.libraries = []) :
    modules = workspace.files.map .file := by
  have hnone := List.filterMap_eq_nil_iff.1 (h.libraries.trans hlibraries)
  have hfile : ∀ m ∈ modules, m.file?.map Module.file = some m := by
    intro m hm
    cases m with
    | file f => rfl
    | library l => cases hnone _ hm
  rw [← h.files, List.map_filterMap, List.filterMap_congr hfile, List.filterMap_some]

namespace OfFiles

variable {a b workspace : Workspace}

theorem empty : Workspace.empty.OfFiles :=
  ⟨OwnedByLast.empty, Tracks.empty⟩

theorem alike (ha : a.OfFiles) (hb : b.OfFiles) (hfiles : a.files = b.files) : a.Alike b := by
  have hlibraries : a.libraries = b.libraries := ha.owned.libraries.trans hb.owned.libraries.symm
  have howners : a.owners = b.owners := by
    apply ha.owned.sorted.ext hb.owned.sorted
    intro key
    rw [ha.owned.lookup_eq, hb.owned.lookup_eq, heir?_congr hfiles hlibraries]
  have hsame := hb.tracks
  rw [← hfiles] at hsame
  exact ha.tracks.alike hsame howners

theorem removeFile (h : workspace.OfFiles) (path : Path) : (workspace.removeFile path).OfFiles := by
  have howned := h.owned.removeFile path
  have htracks := h.tracks.removeFile path
  exact ⟨howned, htracks.eq_map_file howned.libraries ▸ htracks⟩

theorem files_removeFile (h : workspace.OfFiles) (path : Path) :
    (workspace.removeFile path).files = workspace.files.filter (!·.path == path) := by
  rw [← (h.tracks.removeFile path).files, Module.unregister, List.filter_map, List.filterMap_map]
  refine (List.filterMap_some).trans (List.filter_congr fun file _ => ?_)
  simp [Module.id, BEq.beq, Path.same]

theorem addFile (h : workspace.OfFiles) {path : Path} {text : Text} {file : SourceFile}
    (hfile : SourceFile.ofText path text = .ok file) : (workspace.addFile file).OfFiles := by
  have howned := h.owned.addFile file
  have htracks := h.tracks.addFile (SourceFile.from_of_ofText hfile)
  exact ⟨howned, htracks.eq_map_file howned.libraries ▸ htracks⟩

theorem files_addFile (h : workspace.OfFiles) (file : SourceFile) :
    (workspace.addFile file).files = workspace.files.filter (!·.path == file.path) ++ [file] :=
  congrArg (· ++ [file]) (h.files_removeFile file.path)

end OfFiles

/-- A change of the files of a workspace. -/
inductive Edit where
  | setText (path : Path) (text : Text)
  | setFiles (texts : List (Path × Text))
  | removeFile (path : Path)

def edit (workspace : Workspace) : Edit → Workspace
  | .setText path text => match workspace.setText path text with
    | .ok next => next
    | .error _ => workspace
  | .setFiles texts => workspace.addFiles
      (partitionResults (texts.map fun (path, text) => SourceFile.ofText path text)).1
  | .removeFile path => workspace.removeFile path

/-- The workspace that a sequence of edits builds from the empty one. -/
def edited (edits : List Edit) : Workspace :=
  edits.foldl edit empty

def discard (texts : List (Path × Text)) (path : Path) : List (Path × Text) :=
  texts.filter (!·.1 == path)

/-- The texts after one more was given. It goes behind the others and replaces what was
there at its path, provided that it can be read. -/
def keep (texts : List (Path × Text)) (source : Path × Text) : List (Path × Text) :=
  match SourceFile.ofText source.1 source.2 with
  | .ok _ => discard texts source.1 ++ [source]
  | .error _ => texts

def Edit.survivors (texts : List (Path × Text)) : Edit → List (Path × Text)
  | .setText path text => keep texts (path, text)
  | .setFiles new => new.foldl keep texts
  | .removeFile path => discard texts path

/-- The texts that survive a sequence of edits, in the order in which they were last set. -/
def survivors (edits : List Edit) : List (Path × Text) :=
  edits.foldl Edit.survivors []

/-- The texts can be read, and these are the files they give. -/
def ReadAs (texts : List (Path × Text)) (files : List SourceFile) : Prop :=
  List.Forall₂ (fun source file => SourceFile.ofText source.1 source.2 = .ok file) texts files

/-- The files of the workspace are what the texts are read as. -/
structure Shows (workspace : Workspace) (texts : List (Path × Text)) : Prop where
  ofFiles : workspace.OfFiles
  read : ReadAs texts workspace.files

namespace Shows

variable {workspace : Workspace} {texts : List (Path × Text)}

theorem empty : Workspace.empty.Shows [] :=
  ⟨OfFiles.empty, .nil⟩

theorem filter_read (h : workspace.Shows texts) (path : Path) :
    ReadAs (discard texts path) (workspace.files.filter (!·.path == path)) := by
  refine List.rel_filter (fun source file hfile => ?_) h.read
  simp only [SourceFile.path_of_ofText hfile]

theorem removeFile (h : workspace.Shows texts) (path : Path) :
    (workspace.removeFile path).Shows (discard texts path) :=
  ⟨h.ofFiles.removeFile path, h.ofFiles.files_removeFile path ▸ h.filter_read path⟩

theorem addFile (h : workspace.Shows texts) (source : Path × Text) {file : SourceFile}
    (hfile : SourceFile.ofText source.1 source.2 = .ok file) :
    (workspace.addFile file).Shows (discard texts source.1 ++ [source]) := by
  refine ⟨h.ofFiles.addFile hfile, ?_⟩
  rw [h.ofFiles.files_addFile, SourceFile.path_of_ofText hfile]
  exact List.rel_append (h.filter_read source.1) (.cons hfile .nil)

theorem addFiles (h : workspace.Shows texts) (new : List (Path × Text)) :
    (workspace.addFiles (partitionResults
      (new.map fun (path, text) => SourceFile.ofText path text)).1).Shows (new.foldl keep texts) := by
  induction new generalizing workspace texts with
  | nil => exact h
  | cons source new ih =>
    simp only [List.map_cons, List.foldl_cons, keep]
    cases hfile : SourceFile.ofText source.1 source.2 with
    | ok file => exact ih (h.addFile source hfile)
    | error cause => exact ih h

theorem edit (h : workspace.Shows texts) (edit : Edit) :
    (workspace.edit edit).Shows (edit.survivors texts) := by
  cases edit with
  | setText path text =>
    simp only [Workspace.edit, setText, Edit.survivors, keep]
    cases hfile : SourceFile.ofText path text with
    | ok file => exact h.addFile (path, text) hfile
    | error cause => exact h
  | setFiles new => exact h.addFiles new
  | removeFile path => exact h.removeFile path

theorem foldl (h : workspace.Shows texts) (edits : List Edit) :
    (edits.foldl Workspace.edit workspace).Shows (edits.foldl Edit.survivors texts) := by
  induction edits generalizing workspace texts with
  | nil => exact h
  | cons edit edits ih => exact ih (h.edit edit)

theorem pairwise_paths (h : workspace.Shows texts) :
    texts.Pairwise fun a b => a.1.components ≠ b.1.components := by
  have hsame : texts.map (·.1.components) = workspace.files.map (·.path.components) := by
    rw [← List.forall₂_eq_eq_eq, List.forall₂_map_left_iff, List.forall₂_map_right_iff]
    exact h.read.imp fun source file hfile =>
      congrArg Path.components (SourceFile.path_of_ofText hfile).symm
  have hpaths := List.pairwise_map.2 h.ofFiles.tracks.pairwise_paths
  rw [← hsame] at hpaths
  exact List.pairwise_map.1 hpaths

theorem files_eq {other : Workspace} (h : workspace.Shows texts) (hother : other.Shows texts) :
    workspace.files = other.files :=
  List.right_unique_forall₂' (fun _ _ _ ha hb => Except.ok.inj (ha.symm.trans hb))
    h.read hother.read

end Shows

theorem keep_of_ne {texts : List (Path × Text)} {source : Path × Text} {file : SourceFile}
    (hfile : SourceFile.ofText source.1 source.2 = .ok file)
    (h : ∀ other ∈ texts, other.1.components ≠ source.1.components) :
    keep texts source = texts ++ [source] := by
  simp only [keep, hfile]
  rw [discard, List.filter_eq_self.2 fun other hother => ?_]
  simpa [BEq.beq, Path.same] using h other hother

theorem foldl_keep {texts new : List (Path × Text)} {files : List SourceFile}
    (hread : ReadAs new files)
    (hpaths : (texts ++ new).Pairwise fun a b => a.1.components ≠ b.1.components) :
    new.foldl keep texts = texts ++ new := by
  induction hread generalizing texts with
  | nil => simp
  | @cons source file new files hfile _ ih =>
    have hsource : ∀ other ∈ texts, other.1.components ≠ source.1.components :=
      fun other hother => (List.pairwise_append.1 hpaths).2.2 other hother source List.mem_cons_self
    rw [List.foldl_cons, keep_of_ne hfile hsource, ih]
    · simp
    · simpa using hpaths

theorem partitionResults_ofText {texts : List (Path × Text)} {files : List SourceFile}
    (h : ReadAs texts files) :
    partitionResults (texts.map fun (path, text) => SourceFile.ofText path text) = (files, []) := by
  induction h with
  | nil => rfl
  | cons hfile _ ih => simp [hfile, ih]

/-- However a workspace of files alone was edited, it looks like the one that is rebuilt
from the surviving texts, all of which can be read. An edit that fails changes nothing. -/
theorem edited_alike_rebuild (edits : List Edit) :
    (survivors edits).map (fun (path, text) => SourceFile.ofText path text) =
      (edited edits).files.map .ok ∧
    (edited edits).Alike (rebuild (survivors edits) []).1 ∧
    (rebuild (survivors edits) []).2 = [] ∧
    ∀ path text, match (edited edits).setText path text with
      | .ok next => edited (edits ++ [.setText path text]) = next
      | .error _ => edited (edits ++ [.setText path text]) = edited edits := by
  have hedited : (edited edits).Shows (survivors edits) := Shows.empty.foldl edits
  have hpartition := partitionResults_ofText hedited.read
  have hrebuilt : (rebuild (survivors edits) []).1.Shows (survivors edits) := by
    have hadded := Shows.empty.addFiles (survivors edits)
    rwa [foldl_keep hedited.read hedited.pairwise_paths, List.nil_append] at hadded
  refine ⟨?_, hedited.ofFiles.alike hrebuilt.ofFiles (hedited.files_eq hrebuilt), ?_, ?_⟩
  · rw [← List.forall₂_eq_eq_eq, List.forall₂_map_left_iff, List.forall₂_map_right_iff]
    exact hedited.read
  · simp only [rebuild, hpartition]
  · intro path text
    simp only [edited, List.foldl_append, List.foldl_cons, List.foldl_nil, edit]
    split <;> rfl

end Workspace

end SuiteIndex
