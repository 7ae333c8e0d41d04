import SuiteIndex.Index.Symbol
import SuiteIndex.Library.Definition

/-! # Libraries

A library is a module of keywords without a source text: all its locations are
synthetic.
-/

namespace SuiteIndex

/-- The declaration of an argument, which may have a default behind an equals sign. -/
def Declaration.ofArgument (argument : Text) : Declaration :=
  let (name, default?) := match Text.splitFirst '=' argument with
    | some (name, default) => (Text.trim name, some (Text.trim default))
    | none => (argument, none)
  { id := ⟨none, name, .synthetic⟩
    kind := .scalar
    values := default?.toList.map fun default => .literal ⟨default, .synthetic⟩
    location := .synthetic }

/-- The keyword of a definition. An empty documentation is none. -/
def UserKeyword.ofDefinition (moduleName : Text) (definition : KeywordDefinition) : UserKeyword :=
  { UserKeyword.named ⟨some moduleName, definition.name, .synthetic⟩ with
    arguments := some {
      id := ⟨none, "Arguments".toList, .synthetic⟩
      values := definition.arguments.names.map Declaration.ofArgument
      location := .synthetic }
    documentation :=
      if definition.documentation.isEmpty then none
      else some {
        id := ⟨none, "Documentation".toList, .synthetic⟩
        value := ⟨definition.documentation, .synthetic⟩
        location := .synthetic } }

structure Library where
  name : Text
  version : Text
  suite : Suite
  symbols : Symbols

namespace Library

def ofDefinition (definition : LibraryDefinition) : Library :=
  let keywords := definition.keywords.map (.ofDefinition definition.name)
  let suite : Suite :=
    { Suite.empty .synthetic with keywords? := some ⟨keywords, .synthetic⟩ }
  { name := definition.name
    version := definition.version
    suite := suite
    symbols := .ofSuite definition.name (.library definition.name) suite }

/-- Libraries are told apart by their names without regard to case. -/
def key (library : Library) : Text :=
  Text.lower library.name

end Library

end SuiteIndex
