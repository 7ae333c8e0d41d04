import SuiteIndex.Editor.Cursor
import SuiteIndex.Workspace.Lookup

/-! # Finding usages

All places of a workspace where a keyword is used: calls at any depth, and the keywords
of templates.
-/

namespace SuiteIndex

/-- A place where a keyword is used or declared; libraries have no path. -/
structure Usage where
  path : Option Path
  location : Location
  isDeclaration : Bool
deriving BEq, DecidableEq

/-- Add the keyword that a node uses, if it uses one. -/
def Usage.collect (uses : List Identifier) : Node → List Identifier
  | .callExpression call => uses ++ [call.callee]
  | .template setting => uses ++ setting.keyword.toList
  | _ => uses

/-- The names of the keywords a suite uses, in the order of a walk. -/
def Suite.keywordUses (suite : Suite) : List Identifier :=
  ((Visitor.onEnter fun uses node _ => (Usage.collect uses node, .proceed)).run
    (.testSuite suite) []).1

/-- An item behind the others unless it is among them. -/
def addOnce {α : Type} [BEq α] (items : List α) (item : α) : List α :=
  if items.contains item then items else items ++ [item]

namespace Workspace

def usagesIn (workspace : Workspace) (keyword : KeywordSymbol) (file : SourceFile) :
    List Usage :=
  (file.suite.keywordUses.filter fun id =>
      (workspace.resolveKeyword id file.moduleName).any (· == keyword)).map
    fun id => ⟨some file.path, id.location, false⟩

/-- The places that can mean a keyword, if wanted with its declaration in front. -/
def usages (workspace : Workspace) (keyword : KeywordSymbol) (withDeclaration : Bool) :
    List Usage :=
  (if withDeclaration then [⟨keyword.origin.path?, keyword.location, true⟩] else []) ++
    workspace.files.flatMap (workspace.usagesIn keyword)

/-- The usages of every keyword that the name at a position can mean. -/
def usagesAt (workspace : Workspace) (path : Path) (position : Position)
    (withDeclaration : Bool) : List Usage :=
  match workspace.file? path with
  | none => []
  | some file =>
    match Cursor.reference? (Cursor.chain file.suite position) with
    | some (.keyword id) =>
      ((workspace.resolveKeyword id file.moduleName).flatMap fun keyword =>
        workspace.usages keyword withDeclaration).foldl addOnce []
    | _ => []

end Workspace

end SuiteIndex
