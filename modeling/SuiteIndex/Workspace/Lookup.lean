import SuiteIndex.Workspace.Basic

/-! # Looking things up

Modules by their names, declarations by the names that refer to them, and keywords by
the start of what is typed.
-/

namespace SuiteIndex

/-- A file or a library. -/
inductive Module where
  | file (file : SourceFile)
  | library (library : Library)

namespace Module

def name : Module → Text
  | file f => f.moduleName
  | library l => l.name

def symbols : Module → Symbols
  | file f => f.symbols
  | library l => l.symbols

end Module

/-- Keywords of one name, whatever their case. -/
structure KeywordGroup where
  name : Text
  keywords : List KeywordSymbol
  /-- Whether the name alone does not tell the keywords apart well enough. -/
  showModule : Bool
deriving DecidableEq

namespace Workspace

def ownedModule? (workspace : Workspace) : Owner → Option Module
  | .file path => (workspace.file? path).map .file
  | .library key => (workspace.libraryOfKey? key).map .library

def module? (workspace : Workspace) (name : Text) : Option Module := do
  workspace.ownedModule? (← workspace.owners.lookup (Text.lower name))

def fileOfModule? (workspace : Workspace) (name : Text) : Option SourceFile :=
  match workspace.module? name with
  | some (.file file) => some file
  | _ => none

/-- The modules that own a name starting like this, in the order of the names, whatever the
order of the entries. -/
def modulesAmong (workspace : Workspace) (entries : List (Text × Owner)) (start : Text) :
    List Module :=
  let found := (entries.filter fun entry => Text.startsWith (Text.lower start) entry.1).filterMap
    fun entry => (workspace.ownedModule? entry.2).map (entry.1, ·)
  (found.mergeSort fun a b => Text.notAfter a.1 b.1).map Prod.snd

def modulesStartingWith (workspace : Workspace) (start : Text) : List Module :=
  workspace.modulesAmong workspace.owners start

/-- The candidates declared in a module, or all of them if none is. -/
def prefer {α : Type} (moduleOf : α → Text) (moduleName : Text) (candidates : List α) : List α :=
  let near := candidates.filter fun a => Text.sameIgnoringAsciiCase (moduleOf a) moduleName
  if near.isEmpty then candidates else near

/-- The keywords a name can mean in a module. A qualified name means the keywords of
the module it names; if there are none, the dot may belong to a keyword's own name.
Any other name means the keywords of the same module, and failing that all keywords
of that name. -/
def resolveKeyword (workspace : Workspace) (id : Identifier) (moduleName : Text) :
    List KeywordSymbol :=
  let candidates := workspace.symbols.keywords.exact id.name
  match id.qualifier with
  | some qualifier =>
    let qualified := candidates.filter fun keyword =>
      Text.sameIgnoringAsciiCase keyword.moduleName qualifier
    if qualified.isEmpty then workspace.symbols.keywords.exact id.fullName else qualified
  | none => prefer KeywordSymbol.moduleName moduleName candidates

/-- The variables a reference can mean in a module. -/
def resolveVariable (workspace : Workspace) (kind : VariableKind) (name moduleName : Text) :
    List VariableSymbol :=
  prefer VariableSymbol.moduleName moduleName
    (workspace.symbols.vars.exact (kind.reference name))

/-- Put a keyword into the group of its name, or into a new group behind the others. -/
def addToGroups (groups : List (Text × List KeywordSymbol)) (keyword : KeywordSymbol) :
    List (Text × List KeywordSymbol) :=
  let key := Container.normalize keyword.name
  match groups with
  | [] => [(key, [keyword])]
  | (other, members) :: rest =>
    if other = key then (other, members ++ [keyword]) :: rest
    else (other, members) :: addToGroups rest keyword

/-- Whether what is typed and the name of a module agree as far as both go. Both
are in lower case. -/
def agree (typed moduleName : Text) : Bool :=
  !typed.isEmpty && !moduleName.isEmpty &&
    (Text.startsWith moduleName typed || Text.startsWith typed moduleName)

/-- The keywords whose names start with what is typed, grouped by name. Before the last
dot stands the start of a module name. -/
def findKeywords (workspace : Workspace) (typed : Text) : List KeywordGroup :=
  let (filter?, start) := match Text.splitLast '.' typed with
    | some (moduleStart, start) => (some (Text.lower moduleStart), start)
    | none => (none, typed)
  let found := (workspace.symbols.keywords.startingWith start).filter fun keyword =>
    match filter? with
    | some moduleStart => Text.startsWith moduleStart (Text.lower keyword.moduleName)
    | none => true
  (found.foldl addToGroups []).filterMap fun (_, members) =>
    members.head?.map fun first =>
      { name := first.name
        keywords := members
        showModule := 1 < members.length ||
          members.any fun keyword => agree (Text.lower typed) (Text.lower keyword.moduleName) }

end Workspace

end SuiteIndex
