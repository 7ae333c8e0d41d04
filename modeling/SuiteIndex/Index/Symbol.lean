import SuiteIndex.Index.Container
import SuiteIndex.Node.Walk
import SuiteIndex.Path

/-! # Symbols

The keywords and variables that a suite declares for other suites to use, with the
place of their declaration.
-/

namespace SuiteIndex

/-- Where a symbol is declared. -/
inductive Origin where
  | file (path : Path)
  | library (name : Text)
deriving BEq, DecidableEq

def Origin.path? : Origin → Option Path
  | file path => some path
  | library _ => none

structure KeywordSymbol where
  name : Text
  moduleName : Text
  origin : Origin
  location : Location
  /-- The arguments as a caller would write them, with their defaults. -/
  arguments : List Text
  documentation : Option Text
deriving BEq, DecidableEq

/-- An argument in reference form; a default of plain text is written behind it. -/
def Declaration.argumentText (declaration : Declaration) : Text :=
  match declaration.values.head?.bind Expression.literal? with
  | some default => declaration.displayName ++ '=' :: default.value
  | none => declaration.displayName

namespace KeywordSymbol

def ofKeyword (moduleName : Text) (origin : Origin) (keyword : UserKeyword) : KeywordSymbol where
  name := keyword.id.name
  moduleName := keyword.id.qualifier.getD moduleName
  origin := origin
  location := keyword.location
  arguments := match keyword.arguments with
    | some arguments => arguments.values.map Declaration.argumentText
    | none => []
  documentation := keyword.documentation.map (·.value.value)

/-- The name, after the name of its module if that is not empty. -/
def fullName (symbol : KeywordSymbol) : Text :=
  if symbol.moduleName.isEmpty then symbol.name
  else symbol.moduleName ++ '.' :: symbol.name

instance : Keyed KeywordSymbol := ⟨name⟩

end KeywordSymbol

structure VariableSymbol where
  name : Text
  kind : VariableKind
  moduleName : Text
  origin : Origin
  location : Location
deriving BEq

namespace VariableSymbol

def ofDeclaration (moduleName : Text) (origin : Origin) (declaration : Declaration) :
    VariableSymbol where
  name := declaration.id.name
  kind := declaration.kind
  moduleName := moduleName
  origin := origin
  location := declaration.location

def displayName (symbol : VariableSymbol) : Text :=
  symbol.kind.reference symbol.name

/-- The sigil belongs to the key, so variables of different kinds never meet. -/
instance : Keyed VariableSymbol := ⟨displayName⟩

end VariableSymbol

/-- The symbols of a suite or of many suites. -/
structure Symbols where
  keywords : Container KeywordSymbol
  vars : Container VariableSymbol

namespace Symbols

def empty : Symbols :=
  ⟨.empty, .empty⟩

def merge (a b : Symbols) : Symbols :=
  ⟨a.keywords.merge b.keywords, a.vars.merge b.vars⟩

def retract (a b : Symbols) : Symbols :=
  ⟨a.keywords.retract b.keywords, a.vars.retract b.vars⟩

/-- Take in the symbol a node declares. Only the tables of keywords and variables are
entered. -/
def visit (moduleName : Text) (origin : Origin) (symbols : Symbols) (node : Node)
    (parent : Option Node) : Symbols × Verdict :=
  match node with
  | .testSuite _ | .keywordsTable _ | .variablesTable _ => (symbols, .proceed)
  | .userKeyword keyword =>
    ({ symbols with keywords := symbols.keywords.add (.ofKeyword moduleName origin keyword) },
      .skip)
  | .variableDeclaration declaration =>
    if parent.map Node.kind = some .variablesTable then
      ({ symbols with
          vars := symbols.vars.add (.ofDeclaration moduleName origin declaration) },
        .skip)
    else (symbols, .skip)
  | _ => (symbols, .skip)

def ofSuite (moduleName : Text) (origin : Origin) (suite : Suite) : Symbols :=
  ((Visitor.onEnter (visit moduleName origin)).run (.testSuite suite) empty).1

end Symbols

end SuiteIndex
