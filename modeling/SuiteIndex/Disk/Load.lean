import SuiteIndex.Disk.Scan
import SuiteIndex.Workspace.Edit

/-! # Loading a workspace from disk

All files below a folder are read into a workspace. A file that cannot be read is
reported and does not keep the others out.
-/

namespace SuiteIndex

/-- What came of loading. -/
structure LoadReport where
  files : Nat
  libraries : Nat
  errors : List WorkspaceError

def LoadReport.isClean (report : LoadReport) : Bool :=
  report.errors.isEmpty

namespace Disk

variable (walk : Walk) (disk : Disk)

def collect (options : ScanOptions) (root : Path) : Except WorkspaceError (List Path) :=
  (disk.scan walk options root).mapError (.unreadable root)

def load (path : Path) : Except WorkspaceError Text :=
  (disk.readText path).mapError (.unreadable path)

/-- Read the file at a path. Its extension is looked at before the file is. -/
def loadFile (path : Path) : Except WorkspaceError SourceFile := do
  let _ ← path.language.mapError (WorkspaceError.ofSource path)
  SourceFile.ofText path (← disk.load path)

def libraryExtension : Text := "json".toList

/-- Read the library definition at a path. A fault in it is told with the name of its
file. -/
def loadLibrary (path : Path) : Except WorkspaceError Library :=
  if path.extension?.any (Text.sameIgnoringAsciiCase · libraryExtension) then do
    let json ← disk.load path
    match Library.ofJson json with
    | .error (.badLibrary _ cause) => .error (.badLibrary (path.stem?.map Bytes.shown) cause)
    | result => result
  else .error (.unsupportedExtension path)

/-- A workspace of the files below a folder and of the libraries at the given paths. -/
def loadWorkspace (options : ScanOptions) (root : Path) (libraryPaths : List Path) :
    Except WorkspaceError (Workspace × LoadReport) := do
  let paths ← disk.collect walk options root
  let (libraries, libraryErrors) := partitionResults (libraryPaths.map disk.loadLibrary)
  let (files, fileErrors) := partitionResults (paths.map disk.loadFile)
  return (.ofContents files libraries,
    ⟨files.length, libraries.length, libraryErrors ++ fileErrors⟩)

def loadInto (options : ScanOptions) (root : Path) (workspace : Workspace) :
    Except WorkspaceError (Workspace × LoadReport) := do
  let paths ← disk.collect walk options root
  let (files, errors) := partitionResults (paths.map disk.loadFile)
  return (workspace.addFiles files, ⟨files.length, 0, errors⟩)

end Disk

end SuiteIndex
