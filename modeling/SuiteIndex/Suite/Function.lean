import SuiteIndex.Suite.Expression

/-! # Keywords and test cases

Both are functions: a name, steps, and settings written in brackets. A step calls
a keyword or assigns the result of a call to a variable.
-/

namespace SuiteIndex

/-- A declared variable: an entry of a variables table, an argument, or the target
of an assignment. -/
structure Declaration where
  id : Identifier
  kind : VariableKind
  values : List Expression
  location : Location

namespace Declaration

def displayName (declaration : Declaration) : Text :=
  declaration.kind.reference declaration.id.name

end Declaration

inductive StepBody where
  | declaration (declaration : Declaration)
  | call (call : Call)

/-- One statement of a body. -/
structure Step where
  body : StepBody
  location : Location

namespace Step

def assigned? (step : Step) : Option Call :=
  match step.body with
  | .declaration declaration => declaration.values.head?.bind Expression.call?
  | .call _ => none

end Step

structure Documentation where
  id : Identifier
  value : Literal
  location : Location

structure Arguments where
  id : Identifier
  values : List Declaration
  location : Location

structure Returned where
  id : Identifier
  values : List Expression
  location : Location

structure Timeout where
  id : Identifier
  value : Option Literal
  message : Option Literal
  location : Location

/-- A setup or a teardown. -/
structure Hook where
  id : Identifier
  keyword : Option Call
  location : Location

structure Tags where
  id : Identifier
  values : List Literal
  location : Location

/-- The keyword that every row of a test case supplies arguments for. -/
structure TemplateSetting where
  id : Identifier
  keyword : Option Identifier
  location : Location

structure UserKeyword where
  id : Identifier
  steps : List Step
  documentation : Option Documentation
  arguments : Option Arguments
  returned : Option Returned
  timeout : Option Timeout
  teardown : Option Hook
  tags : Option Tags
  location : Location

structure TestCase where
  id : Identifier
  steps : List Step
  documentation : Option Documentation
  setup : Option Hook
  teardown : Option Hook
  template : Option TemplateSetting
  timeout : Option Timeout
  tags : Option Tags
  location : Location

def UserKeyword.named (id : Identifier) : UserKeyword :=
  ⟨id, [], none, none, none, none, none, none, id.location⟩

def TestCase.named (id : Identifier) : TestCase :=
  ⟨id, [], none, none, none, none, none, none, id.location⟩

end SuiteIndex
