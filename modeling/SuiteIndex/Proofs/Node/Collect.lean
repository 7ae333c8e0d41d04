import SuiteIndex.Node.Walk
import SuiteIndex.Proofs.Node.Chains

/-! # Collecting nodes

A walk that skips nothing meets the nodes of a tree in the order in which they are listed by
recursion over the fields. Collecting therefore finds the nodes of a suite that have a
property, wherever they are held and as often as they are held.
-/

namespace SuiteIndex

theorem Visitor.walk_onEnter_proceed {σ : Type} (act : σ → Node → σ) (parent : Option Node)
    (forest : List Node) (s : σ) :
    (onEnter fun s node _ => (act s node, .proceed)).walk parent forest s =
      ((Node.nodesOf forest).foldl act s, false) := by
  fun_induction Node.chains forest generalizing parent s with
  | case1 => simp [walk, Node.nodesOf]
  | case2 node rest ihbelow ihrest =>
    rw [walk]
    simp only [onEnter] at ihbelow ihrest ⊢
    simp only [ihbelow, ihrest]
    simp [Node.nodesOf, Node.nodes_eq node]

namespace Node

theorem map_name_slots (node : Node) : node.kind.slots.map Slot.name = node.fields.map Prod.fst := by
  cases node <;> rfl

theorem collect_eq_filter (p : Node → Bool) (root : Node) :
    root.collect p = root.nodes.filter p := by
  have hfold (found nodes : List Node) :
      nodes.foldl (fun found node => if p node then found ++ [node] else found) found =
        found ++ nodes.filter p := by
    induction nodes generalizing found with
    | nil => simp
    | cons node nodes ih =>
      rw [List.foldl_cons, ih]
      cases hp : p node <;> simp [hp]
  rw [collect, Visitor.run, Visitor.walk_onEnter_proceed, hfold]
  simp [nodesOf]

/-- Collecting everything gives the nodes held in the fields of a suite, field by field and
at every depth: the schema names all slots of every node and no others. -/
theorem collect_suite (suite : Suite) :
    collect (fun _ => true) (testSuite suite) = suite.nodes ∧
      ∀ node : Node, node.kind.slots.map Slot.name = node.fields.map Prod.fst := by
  refine ⟨?_, map_name_slots⟩
  rw [collect_eq_filter, List.filter_true]
  rfl

end Node

end SuiteIndex
