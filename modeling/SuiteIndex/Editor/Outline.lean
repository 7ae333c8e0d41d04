import SuiteIndex.Editor.Definition

/-! # Outlines

The variables, keywords and test cases of a file in the order of their tables, and the
symbols of a whole workspace by name.
-/

namespace SuiteIndex

/-- An entry of an outline. -/
structure OutlineEntry where
  name : Text
  kind : SymbolKind
  moduleName : Option Text
  path : Option Path
  location : Location

namespace SourceFile

def entry (file : SourceFile) (name : Text) (kind : SymbolKind) (location : Location) :
    OutlineEntry :=
  ⟨name, kind, if file.moduleName.isEmpty then none else some file.moduleName,
    some file.path, location⟩

/-- Take in the entry of a node. Declarations inside functions are not listed. -/
def outlineVisit (file : SourceFile) (entries : List OutlineEntry) (node : Node)
    (_ : Option Node) : List OutlineEntry × Verdict :=
  match node with
  | .testSuite _ | .variablesTable _ | .keywordsTable _ | .testCasesTable _ =>
    (entries, .proceed)
  | .userKeyword keyword =>
    (entries ++ [file.entry keyword.id.name .keyword keyword.location], .skip)
  | .testCase test => (entries ++ [file.entry test.id.name .testCase test.location], .skip)
  | .variableDeclaration declaration =>
    (entries ++ [file.entry declaration.displayName .variable declaration.location], .skip)
  | _ => (entries, .skip)

def outline (file : SourceFile) : List OutlineEntry :=
  ((Visitor.onEnter file.outlineVisit).run (.testSuite file.suite) []).1

end SourceFile

def Library.outline (library : Library) : List OutlineEntry :=
  library.symbols.keywords.items.map fun keyword =>
    ⟨keyword.name, .keyword, some library.name, none, keyword.location⟩

namespace OutlineEntry

/-- Whether the name contains a query in lower case, itself in any case. -/
def isMatch (query : Text) (entry : OutlineEntry) : Bool :=
  query.isEmpty || Text.contains query (Text.lower entry.name)

def notAfter (a b : OutlineEntry) : Bool :=
  Text.notAfter (Text.lower a.name) (Text.lower b.name)

end OutlineEntry

/-- The entries of all files and then of all libraries that match a query, sorted by
name. -/
def Workspace.search (workspace : Workspace) (query : Text) : List OutlineEntry :=
  ((workspace.files.flatMap SourceFile.outline ++ workspace.libraries.flatMap Library.outline).filter
    (OutlineEntry.isMatch (Text.lower query))).mergeSort OutlineEntry.notAfter

end SuiteIndex
