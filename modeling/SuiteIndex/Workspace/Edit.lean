import SuiteIndex.Workspace.Basic

/-! # Editing a workspace

A workspace follows the texts of an editor: one file is read anew, or everything is.
A text that cannot be read changes nothing.
-/

namespace SuiteIndex

/-- The results and the errors of a list of attempts, both in order. -/
def partitionResults {ε α : Type} : List (Except ε α) → List α × List ε
  | [] => ([], [])
  | .ok a :: rest => let (as, es) := partitionResults rest; (a :: as, es)
  | .error e :: rest => let (as, es) := partitionResults rest; (as, e :: es)

namespace Workspace

/-- Read the text of a file, and put the file in place of the one at the same path. -/
def setText (workspace : Workspace) (path : Path) (text : Text) :
    Except WorkspaceError Workspace :=
  (SourceFile.ofText path text).map workspace.addFile

/-- A new workspace of texts and libraries, and the errors of the texts that had to be
left out. -/
def rebuild (texts : List (Path × Text)) (libraries : List Library) :
    Workspace × List WorkspaceError :=
  let (files, errors) := partitionResults (texts.map fun (path, text) => SourceFile.ofText path text)
  (ofContents files libraries, errors)

end Workspace

end SuiteIndex
