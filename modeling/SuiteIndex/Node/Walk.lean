import SuiteIndex.Node.Nodes

/-! # Walking through a suite

A walk enters every node before its children and leaves it after them. The visitor
answers each call with what to do next: go on, skip the children of the node just
entered, or halt the whole walk.
-/

namespace SuiteIndex

/-- What a visitor wants next. -/
inductive Verdict where
  | proceed
  /-- Do not enter the children; the node is still left. -/
  | skip
  /-- No further call of any sort. -/
  | halt
deriving DecidableEq

/-- What to do at a node, given its parent. The state is handed from call to call. -/
structure Visitor (σ : Type) where
  enter : σ → Node → Option Node → σ × Verdict
  leave : σ → Node → Option Node → σ × Verdict

namespace Visitor

variable {σ : Type}

def onEnter (enter : σ → Node → Option Node → σ × Verdict) : Visitor σ :=
  ⟨enter, fun s _ _ => (s, .proceed)⟩

/-- Walk through the nodes of a forest below `parent`. The answer tells whether the
walk was halted. -/
def walk (visitor : Visitor σ) (parent : Option Node) : List Node → σ → σ × Bool
  | [], s => (s, false)
  | node :: rest, s =>
    match visitor.enter s node parent with
    | (s, .halt) => (s, true)
    | (s, .skip) => match visitor.leave s node parent with
      | (s, .halt) => (s, true)
      | (s, _) => walk visitor parent rest s
    | (s, .proceed) => match walk visitor (some node) node.children s with
      | (s, true) => (s, true)
      | (s, false) => match visitor.leave s node parent with
        | (s, .halt) => (s, true)
        | (s, _) => walk visitor parent rest s
termination_by forest => (Node.nodesOf forest).length
decreasing_by
  all_goals
    have := Node.length_nodesOf_children node
    simp only [Node.nodesOf, List.flatMap_cons, List.length_append] at this ⊢
    omega

def run (visitor : Visitor σ) (root : Node) (s : σ) : σ × Bool :=
  walk visitor none [root] s

end Visitor

namespace Node

/-- The nodes that satisfy `p`, in the order of the walk. -/
def collect (p : Node → Bool) (root : Node) : List Node :=
  ((Visitor.onEnter fun found node _ =>
    (if p node then found ++ [node] else found, .proceed)).run root []).1

/-- What identifies a node to a reader: the full name of a function, a called keyword
or a name, and the reference form of a variable. -/
def title? : Node → Option Text
  | userKeyword keyword => some keyword.id.fullName
  | testCase test => some test.id.fullName
  | callExpression call => some call.callee.fullName
  | variableDeclaration declaration => some declaration.displayName
  | variableExpression use => some use.displayName
  | identifier id => some id.fullName
  | _ => none

end Node

end SuiteIndex
