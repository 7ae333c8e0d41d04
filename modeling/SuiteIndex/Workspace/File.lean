import SuiteIndex.Disk.Entry
import SuiteIndex.Document
import SuiteIndex.Index.Symbol
import SuiteIndex.Library.Basic

/-! # Files of a workspace

A file of a workspace is a document with its path and the symbols it declares. This
module also holds what can go wrong on the way into a workspace.
-/

namespace SuiteIndex

inductive WorkspaceError where
  | unsupportedExtension (path : Path)
  | unreadable (path : Path) (cause : Disk.Fault)
  | unparsable (path : Path) (cause : SourceError)
  /-- The name is missing unless the file of the definition gives it. -/
  | badLibrary (name : Option Text) (cause : Json.Fault)

namespace WorkspaceError

/-- What went wrong with the file at a path. A problem with its extension is told by
the path alone. -/
def ofSource (path : Path) : SourceError → WorkspaceError
  | .missingExtension _ => unsupportedExtension path
  | .unsupportedExtension _ => unsupportedExtension path
  | cause => unparsable path cause

/-- The text of an error, where it has one of its own. -/
def message? : WorkspaceError → Option Text
  | unsupportedExtension path => some ("Unsupported file extension: ".toList ++ path.shown)
  | unparsable path cause =>
    some ("Failed to parse ".toList ++ path.shown ++ ": ".toList ++ cause.message)
  | unreadable _ _ => none
  | badLibrary _ _ => none

end WorkspaceError

structure SourceFile where
  path : Path
  document : Document
  symbols : Symbols

namespace SourceFile

def ofDocument (path : Path) (document : Document) : SourceFile :=
  ⟨path, document, .ofSuite document.moduleName (.file path) document.suite⟩

def ofText (path : Path) (text : Text) : Except WorkspaceError SourceFile :=
  match Document.ofContent path text with
  | .ok document => .ok (ofDocument path document)
  | .error cause => .error (.ofSource path cause)

def suite (file : SourceFile) : Suite :=
  file.document.suite

def moduleName (file : SourceFile) : Text :=
  file.document.moduleName

/-- Modules are told apart by their names without regard to case. -/
def key (file : SourceFile) : Text :=
  Text.lower file.moduleName

end SourceFile

def Library.ofJson (json : Text) : Except WorkspaceError Library :=
  match LibraryDefinition.read json with
  | .ok definition => .ok (ofDefinition definition)
  | .error cause => .error (.badLibrary none cause)

end SuiteIndex
