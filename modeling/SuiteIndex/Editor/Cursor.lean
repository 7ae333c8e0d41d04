import SuiteIndex.Node.Walk

/-! # Nodes under a cursor

The chain of nodes around a position, from the suite inwards. Where two chains of
equal length touch the position, the later one counts. Nodes that do not contain the
position are not entered.
-/

namespace SuiteIndex.Cursor

/-- The open nodes and the longest chain so far, both innermost first. -/
structure Search where
  stack : List Node
  deepest : List Node

/-- The visitor that looks for the longest chain around a position. -/
def finder (position : Position) : Visitor Search where
  enter search node _ :=
    let stack := node :: search.stack
    if node.location.contains position then
      (⟨stack, if search.deepest.length ≤ stack.length then stack else search.deepest⟩, .proceed)
    else (⟨stack, search.deepest⟩, .skip)
  leave search _ _ := (⟨search.stack.tail, search.deepest⟩, .proceed)

def chain (suite : Suite) (position : Position) : List Node :=
  ((finder position).run (.testSuite suite) ⟨[], []⟩).1.deepest.reverse

def node? (suite : Suite) (position : Position) : Option Node :=
  (chain suite position).getLast?

/-- What the name under a cursor refers to. -/
inductive Reference where
  /-- A called keyword, the keyword of a template, or a declared keyword. -/
  | keyword (id : Identifier)
  /-- A used or declared variable. -/
  | named (kind : VariableKind) (name : Text)

/-- What a name means as a child of the node around it. -/
def Reference.inside? (parent : Node) (id : Identifier) : Option Reference :=
  match parent with
  | .callExpression call => if call.callee = id then some (.keyword id) else none
  | .template setting => if setting.keyword = some id then some (.keyword id) else none
  | .userKeyword _ => some (.keyword id)
  | .variableExpression use => some (.named use.kind use.id.name)
  | .variableDeclaration declaration => some (.named declaration.kind declaration.id.name)
  | _ => none

/-- The reference at the inner end of a chain of nodes. -/
def reference? (nodes : List Node) : Option Reference :=
  match nodes.reverse with
  | .identifier id :: parent :: _ => Reference.inside? parent id
  | _ => none

end SuiteIndex.Cursor
