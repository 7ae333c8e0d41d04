import SuiteIndex.Suite.Function
import SuiteIndex.Table.Cell
import SuiteIndex.Token

/-! # Reading cells

What a single cell means: a name, plain text, a variable, text mixed with
variables, or the target of a declaration.
-/

namespace SuiteIndex

namespace Identifier

def plain (cell : Cell) : Identifier :=
  ⟨none, cell.content, cell.location⟩

/-- A name qualified by the text before its last dot. With nothing before or
behind that dot it is a plain name. -/
def ofCell (cell : Cell) : Identifier :=
  match Text.splitLast '.' cell.content with
  | some (qualifier, name) =>
    if qualifier.isEmpty || name.isEmpty then plain cell
    else ⟨some qualifier, name, cell.location⟩
  | none => plain cell

end Identifier

def Literal.ofCell (cell : Cell) : Literal :=
  ⟨cell.content, cell.location⟩

def VariableUse.ofToken? (cell : Cell) (token : Token) : Option VariableUse := do
  let (sigil, name) ← token.parts?
  let kind ← VariableKind.ofSigil? sigil
  let location := .parsed (cell.part token.start token.stop)
  return ⟨⟨none, name, location⟩, kind, location⟩

namespace TemplateText

def piece (cell : Cell) (start : Nat) (text : Text) : Literal :=
  ⟨text, .parsed (cell.part start (start + text.length))⟩

/-- The pieces of text and the variables of the tokens that follow `text`, plain
text read since offset `start`. -/
def assemble (cell : Cell) (start : Nat) (text : Text) : List Token → List Literal × List VariableUse
  | [] => ([piece cell start text], [])
  | token :: rest =>
    match VariableUse.ofToken? cell token with
    | some use =>
      let (pieces, uses) := assemble cell token.stop [] rest
      (piece cell start text :: pieces, use :: uses)
    | none => assemble cell start (text ++ token.text) rest

def ofTokens (cell : Cell) (tokens : List Token) : TemplateText :=
  let (pieces, uses) := assemble cell 0 [] tokens
  ⟨pieces, uses, cell.location⟩

end TemplateText

/-- The value of a cell: a literal if it refers to no variable, a variable if it is
nothing but one reference, and mixed text otherwise. -/
def Expression.ofCell (cell : Cell) : Expression :=
  let tokens := Token.scan cell.content
  if tokens.any Token.isReference then
    match tokens with
    | [token] => match VariableUse.ofToken? cell token with
      | some use => .reference use
      | none => .template (.ofTokens cell tokens)
    | _ => .template (.ofTokens cell tokens)
  else .literal (.ofCell cell)

/-- A variable to be declared, and its default value. -/
structure Target where
  id : Identifier
  kind : VariableKind
  default? : Option Expression
  location : Location

namespace Target

/-- Read a target: a reference, alone or followed by an equals sign. Where defaults
are allowed, the text behind an equals sign that directly follows the reference is
one, and it may be empty. -/
def ofCell? (allowDefault : Bool) (cell : Cell) : Option Target := do
  let head ← (Token.scan cell.content).head?
  let (sigil, name) ← head.parts?
  let kind ← VariableKind.ofSigil? sigil
  let id : Identifier := ⟨none, name, .parsed (cell.part head.start head.stop)⟩
  let rest := cell.content.drop head.text.length
  let trimmed := Text.trim rest
  if trimmed.isEmpty || (trimmed = ['='] && !allowDefault) then
    return ⟨id, kind, none, cell.location⟩
  else if allowDefault then
    let text ← Text.after? ['='] rest
    let start := head.stop + 1
    let value := Expression.ofCell ⟨text, cell.part start (start + text.length)⟩
    return ⟨id, kind, some value, cell.location⟩
  else none

def toDeclaration (target : Target) : Declaration :=
  ⟨target.id, target.kind, target.default?.toList, target.location⟩

end Target

end SuiteIndex
