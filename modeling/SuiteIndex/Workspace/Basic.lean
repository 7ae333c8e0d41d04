import SuiteIndex.Workspace.File

/-! # Workspaces

A workspace holds files and libraries, all their symbols in one place, and for each
module name the file or library that owns it. Adding a file or library replaces the
one of the same path or name. When the owner of a module name goes away, the library
of that name takes over, and without one the file of that name that was added last.
-/

namespace SuiteIndex

/-- Who owns a module name. -/
inductive Owner where
  | file (path : Path)
  /-- A library, by its key. -/
  | library (key : Text)

/-- The owners of module names: a map, written down in the order of the names. -/
abbrev Owners := List (Text × Owner)

namespace Owners

def set (key : Text) (owner : Owner) : Owners → Owners
  | [] => [(key, owner)]
  | (other, old) :: rest =>
    if key = other then (key, owner) :: rest
    else if Text.before key other then (key, owner) :: (other, old) :: rest
    else (other, old) :: set key owner rest

def erase (key : Text) (owners : Owners) : Owners :=
  owners.filter (·.1 ≠ key)

end Owners

structure Workspace where
  /-- In the order they were added. -/
  files : List SourceFile
  /-- In the order they were added. -/
  libraries : List Library
  owners : Owners
  symbols : Symbols

namespace Workspace

def empty : Workspace :=
  ⟨[], [], [], .empty⟩

def file? (workspace : Workspace) (path : Path) : Option SourceFile :=
  workspace.files.find? (·.path == path)

def libraryOfKey? (workspace : Workspace) (key : Text) : Option Library :=
  workspace.libraries.find? (·.key = key)

def library? (workspace : Workspace) (name : Text) : Option Library :=
  workspace.libraryOfKey? (Text.lower name)

/-- Who takes over a module name once its owner is gone. -/
def heir? (workspace : Workspace) (key : Text) : Option Owner :=
  match workspace.libraryOfKey? key with
  | some _ => some (.library key)
  | none => (workspace.files.reverse.find? (·.key = key)).map fun file => .file file.path

def reassign (workspace : Workspace) (key : Text) : Workspace :=
  match workspace.heir? key with
  | some owner => { workspace with owners := workspace.owners.set key owner }
  | none => { workspace with owners := workspace.owners.erase key }

/-- Whether the file at this path owns the module name. -/
def isOwnedByFile (workspace : Workspace) (key : Text) (path : Path) : Bool :=
  match workspace.owners.lookup key with
  | some (.file owner) => owner == path
  | _ => false

/-- Whether the library of this key owns the module name. -/
def isOwnedByLibrary (workspace : Workspace) (key : Text) : Bool :=
  match workspace.owners.lookup key with
  | some (.library owner) => owner = key
  | _ => false

/-- Remove the file at a path and retract its symbols. -/
def removeFile (workspace : Workspace) (path : Path) : Workspace :=
  match workspace.file? path with
  | none => workspace
  | some file =>
    let owned := workspace.isOwnedByFile file.key path
    let smaller : Workspace := { workspace with
      files := workspace.files.eraseP (·.path == path)
      symbols := workspace.symbols.retract file.symbols }
    if owned then smaller.reassign file.key else smaller

/-- Add a file in place of the one at the same path. Its module name is now its own,
unless that is empty. -/
def addFile (workspace : Workspace) (file : SourceFile) : Workspace :=
  let workspace := workspace.removeFile file.path
  { workspace with
    files := workspace.files ++ [file]
    owners :=
      if file.moduleName.isEmpty then workspace.owners
      else workspace.owners.set file.key (.file file.path)
    symbols := workspace.symbols.merge file.symbols }

def addFiles (workspace : Workspace) (files : List SourceFile) : Workspace :=
  files.foldl addFile workspace

/-- Remove the library of this key and retract its symbols. -/
def removeKey (workspace : Workspace) (key : Text) : Workspace :=
  match workspace.libraryOfKey? key with
  | none => workspace
  | some library =>
    let owned := workspace.isOwnedByLibrary key
    let smaller : Workspace := { workspace with
      libraries := workspace.libraries.eraseP (·.key = key)
      symbols := workspace.symbols.retract library.symbols }
    if owned then smaller.reassign key else smaller

def removeLibrary (workspace : Workspace) (name : Text) : Workspace :=
  workspace.removeKey (Text.lower name)

/-- Add a library in place of the one of the same name. -/
def addLibrary (workspace : Workspace) (library : Library) : Workspace :=
  let workspace := workspace.removeKey library.key
  { workspace with
    libraries := workspace.libraries ++ [library]
    owners := workspace.owners.set library.key (.library library.key)
    symbols := workspace.symbols.merge library.symbols }

def addLibraries (workspace : Workspace) (libraries : List Library) : Workspace :=
  libraries.foldl addLibrary workspace

def removeAllLibraries (workspace : Workspace) : Workspace :=
  (workspace.libraries.map Library.key).foldl removeKey workspace

/-- A workspace of the given libraries and files, libraries first. -/
def ofContents (files : List SourceFile) (libraries : List Library) : Workspace :=
  (empty.addLibraries libraries).addFiles files

end Workspace

end SuiteIndex
