import SuiteIndex.Editor.Cursor
import SuiteIndex.Workspace.Lookup

/-! # Going to a definition

The declarations that the name under the cursor can mean.
-/

namespace SuiteIndex

inductive SymbolKind where
  | keyword
  | testCase
  | variable
deriving DecidableEq

/-- A declaration to go to; one in a library has no path. -/
structure Destination where
  kind : SymbolKind
  name : Text
  path : Option Path
  location : Location

namespace Destination

def ofKeyword (symbol : KeywordSymbol) : Destination :=
  ⟨.keyword, symbol.fullName, symbol.origin.path?, symbol.location⟩

def ofVariable (symbol : VariableSymbol) : Destination :=
  ⟨.variable, symbol.displayName, symbol.origin.path?, symbol.location⟩

end Destination

/-- The declarations of what stands at a position of a file. -/
def Workspace.definitions (workspace : Workspace) (path : Path) (position : Position) :
    List Destination :=
  match workspace.file? path with
  | none => []
  | some file =>
    match Cursor.reference? (Cursor.chain file.suite position) with
    | some (.keyword id) => (workspace.resolveKeyword id file.moduleName).map .ofKeyword
    | some (.named kind name) =>
      (workspace.resolveVariable kind name file.moduleName).map .ofVariable
    | none => []

end SuiteIndex
