import SuiteIndex.Text
import SuiteIndex.Position

/-! # Names, values and calls

The words a suite is made of: names with an optional qualifier, variables of four
kinds, literal and mixed text, and keyword calls, which may hold further calls
among their arguments.
-/

namespace SuiteIndex

/-- A name, possibly qualified by the module it belongs to. -/
structure Identifier where
  qualifier : Option Text
  name : Text
  location : Location
deriving DecidableEq

/-- The name with its qualifier and a dot in front. -/
def Identifier.fullName (id : Identifier) : Text :=
  match id.qualifier with
  | some qualifier => qualifier ++ '.' :: id.name
  | none => id.name

inductive VariableKind where
  | scalar
  | list
  | dictionary
  | environment
deriving DecidableEq, Repr

namespace VariableKind

def ofSigil? : Char → Option VariableKind
  | '$' => some .scalar
  | '@' => some .list
  | '&' => some .dictionary
  | '%' => some .environment
  | _ => none

def sigil : VariableKind → Char
  | .scalar => '$'
  | .list => '@'
  | .dictionary => '&'
  | .environment => '%'

/-- A reference to the variable of this kind and name: the name in braces after
the sigil. -/
def reference (kind : VariableKind) (name : Text) : Text :=
  kind.sigil :: '\x7b' :: name ++ ['\x7d']

end VariableKind

/-- A use of a variable. -/
structure VariableUse where
  id : Identifier
  kind : VariableKind
  location : Location
deriving DecidableEq

def VariableUse.displayName (use : VariableUse) : Text :=
  use.kind.reference use.id.name

/-- Plain text. -/
structure Literal where
  value : Text
  location : Location
deriving DecidableEq

/-- Text mixed with variables. There is one more piece of text than there are
variables, and they alternate, text first. -/
structure TemplateText where
  pieces : List Literal
  uses : List VariableUse
  location : Location
deriving DecidableEq

/-- What an argument or a value can be. -/
inductive Expression where
  | literal (literal : Literal)
  | reference (use : VariableUse)
  | template (template : TemplateText)
  | call (callee : Identifier) (args : List Expression) (location : Location)

/-- A keyword call. -/
structure Call where
  callee : Identifier
  args : List Expression
  location : Location

namespace Call

def toExpression (call : Call) : Expression :=
  .call call.callee call.args call.location

end Call

namespace Expression

def location : Expression → Location
  | literal l => l.location
  | reference v => v.location
  | template t => t.location
  | call _ _ loc => loc

def literal? : Expression → Option Literal
  | literal l => some l
  | _ => none

def call? : Expression → Option Call
  | call callee args loc => some ⟨callee, args, loc⟩
  | _ => none

end Expression

def Call.nested (call : Call) : List Call :=
  call.args.filterMap Expression.call?

end SuiteIndex
