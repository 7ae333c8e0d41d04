import SuiteIndex.Proofs.Workspace.File
import SuiteIndex.Proofs.Workspace.Run

/-! # Reachable workspaces

A workspace is reachable if additions and removals lead to it from the empty one. Unlike the
files of a run, which come from texts, the added files may hold any document at any path.
-/

namespace SuiteIndex

namespace Module

/-- A file holds the symbols of a document, and a library those of a definition. -/
inductive Declared : Module → Prop
  | file (path : Path) (document : Document) : Declared (.file (.ofDocument path document))
  | library (definition : LibraryDefinition) : Declared (.library (.ofDefinition definition))

theorem declared_register {modules : List Module} (h : ∀ m ∈ modules, m.Declared) (id : ModuleId)
    {added : Module} (hadded : added.Declared) :
    ∀ m ∈ unregister id modules ++ [added], m.Declared := by
  intro m hm
  rcases List.mem_append.1 hm with hm | hm
  · exact h m (List.mem_of_mem_filter hm)
  · rwa [List.mem_singleton.1 hm]

end Module

namespace Workspace

inductive Reachable : Workspace → Prop where
  | empty : Reachable .empty
  | addFile {workspace : Workspace} (h : Reachable workspace) (path : Path) (document : Document) :
    Reachable (workspace.addFile (.ofDocument path document))
  | removeFile {workspace : Workspace} (h : Reachable workspace) (path : Path) :
    Reachable (workspace.removeFile path)
  | addLibrary {workspace : Workspace} (h : Reachable workspace) (definition : LibraryDefinition) :
    Reachable (workspace.addLibrary (.ofDefinition definition))
  | removeLibrary {workspace : Workspace} (h : Reachable workspace) (name : Text) :
    Reachable (workspace.removeLibrary name)

namespace Reachable

variable {workspace : Workspace}

/-- The modules registered in a reachable workspace are made of documents and definitions. -/
theorem exists_declared (h : workspace.Reachable) :
    ∃ modules, workspace.Tracks modules ∧ ∀ m ∈ modules, m.Declared := by
  induction h with
  | empty => exact ⟨[], Tracks.empty, by simp⟩
  | addFile _ path document ih =>
    obtain ⟨modules, htracks, hdeclared⟩ := ih
    exact ⟨_, htracks.addFile (Symbols.from_ofSuite _ _ _),
      Module.declared_register hdeclared _ (.file path document)⟩
  | removeFile _ path ih =>
    obtain ⟨modules, htracks, hdeclared⟩ := ih
    exact ⟨_, htracks.removeFile path, fun m hm => hdeclared m (List.mem_of_mem_filter hm)⟩
  | addLibrary _ definition ih =>
    obtain ⟨modules, htracks, hdeclared⟩ := ih
    exact ⟨_, htracks.addLibrary (Symbols.from_ofSuite _ _ _),
      Module.declared_register hdeclared _ (.library definition)⟩
  | removeLibrary _ name ih =>
    obtain ⟨modules, htracks, hdeclared⟩ := ih
    exact ⟨_, htracks.removeKey (Text.lower name),
      fun m hm => hdeclared m (List.mem_of_mem_filter hm)⟩

theorem exists_tracks (h : workspace.Reachable) : ∃ modules, workspace.Tracks modules := by
  obtain ⟨modules, htracks, -⟩ := h.exists_declared
  exact ⟨modules, htracks⟩

theorem removeAllLibraries (h : workspace.Reachable) : workspace.removeAllLibraries.Reachable := by
  rw [Workspace.removeAllLibraries, List.foldl_map]
  generalize workspace.libraries = libraries
  induction libraries generalizing workspace with
  | nil => exact h
  | cons library libraries ih => exact ih (h.removeLibrary library.name)

theorem apply (h : workspace.Reachable) (operation : Operation) :
    (workspace.apply operation).Reachable := by
  cases operation with
  | addFile path text =>
    simp only [Workspace.apply]
    cases hfile : SourceFile.ofText path text with
    | ok file =>
      obtain ⟨-, document, -, -, rfl⟩ := SourceFile.exists_read_of_ofText hfile
      exact h.addFile path document
    | error cause => exact h
  | removeFile path => exact h.removeFile path
  | addLibrary definition => exact h.addLibrary definition
  | removeLibrary name => exact h.removeLibrary name
  | removeAllLibraries => exact h.removeAllLibraries
  | clear => exact .empty

theorem foldl (h : workspace.Reachable) (operations : List Operation) :
    (operations.foldl Workspace.apply workspace).Reachable := by
  induction operations generalizing workspace with
  | nil => exact h
  | cons operation operations ih => exact ih (h.apply operation)

end Reachable

theorem reachable_run (operations : List Operation) : (run operations).Reachable :=
  Reachable.empty.foldl operations

end Workspace

end SuiteIndex
