import SuiteIndex.Editor.Definition
import SuiteIndex.Editor.Usage

/-! # Completions

What can be meant by the start of a cell: variables if it starts like a reference, and
keywords otherwise.
-/

namespace SuiteIndex

/-- A suggestion. The label is both shown and inserted. -/
structure Completion where
  label : Text
  kind : SymbolKind
  detail : Option Text
  documentation : Option Text
deriving BEq

namespace Completion

/-- Whether a text starts like a reference: a sigil, and a brace if anything follows. -/
def startsReference : Text → Bool
  | [c] => c = '$' || c = '@' || c = '&'
  | c :: '\x7b' :: _ => c = '$' || c = '@' || c = '&'
  | _ => false

def ofVariable (symbol : VariableSymbol) : Completion where
  label := symbol.displayName
  kind := .variable
  detail := if symbol.moduleName.isEmpty then none else some symbol.moduleName
  documentation := none

/-- A keyword is shown with its module if its group asks for it. The detail lists its
arguments. -/
def ofKeyword (showModule : Bool) (symbol : KeywordSymbol) : Completion where
  label := if showModule then symbol.fullName else symbol.name
  kind := .keyword
  detail :=
    if symbol.arguments.isEmpty then none
    else some (Text.join "    ".toList symbol.arguments)
  documentation := symbol.documentation

end Completion

/-- The suggestions for the start of a cell. A suggestion for keywords comes once. -/
def Workspace.completions (workspace : Workspace) (typed : Text) : List Completion :=
  if Completion.startsReference typed then
    (workspace.symbols.vars.startingWith typed).map .ofVariable
  else
    ((workspace.findKeywords typed).flatMap fun group =>
      group.keywords.map (.ofKeyword group.showModule)).foldl addOnce []

end SuiteIndex
