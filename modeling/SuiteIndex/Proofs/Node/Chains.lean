import Mathlib.Data.List.Chain
import SuiteIndex.Proofs.Node.Nesting

/-! # Chains of nodes

A chain leads from the root of a tree down to one of its nodes, from each node to one of
its children. The chains of a tree come in the order of the nodes they lead to, and there
is one for every node. In a tree whose locations nest, a chain leads to a node around a
position only if it starts at one.
-/

namespace SuiteIndex.Node

/-- The chains of the trees of a forest, in the order of the nodes they lead to. -/
def chains : List Node → List (List Node)
  | [] => []
  | node :: rest => ([node] :: (chains node.children).map (node :: ·)) ++ chains rest
termination_by forest => (nodesOf forest).length
decreasing_by
  all_goals
    have := length_nodesOf_children node
    simp only [nodesOf, List.flatMap_cons, List.length_append] at this ⊢
    omega

/-- Whether the node a chain leads to contains the position. -/
def endsAround (position : Position) (chain : List Node) : Bool :=
  chain.getLast?.any (·.location.contains position)

/-- The chains to the nodes around a position. -/
def chainsAround (position : Position) (forest : List Node) : List (List Node) :=
  (chains forest).filter (endsAround position)

@[simp] theorem chains_nil : chains [] = [] := by
  rw [chains]

theorem chains_cons (node : Node) (rest : List Node) :
    chains (node :: rest) = ([node] :: (chains node.children).map (node :: ·)) ++ chains rest := by
  rw [chains]

theorem ne_nil_of_mem_chains {forest chain : List Node} (h : chain ∈ chains forest) :
    chain ≠ [] := by
  induction forest with
  | nil => simp at h
  | cons node rest ih =>
    rw [chains_cons, List.mem_append, List.mem_cons, List.mem_map] at h
    rcases h with (rfl | ⟨below, -, rfl⟩) | h
    · exact List.cons_ne_nil _ _
    · exact List.cons_ne_nil _ _
    · exact ih h

theorem map_getLast?_chains (forest : List Node) :
    (chains forest).map List.getLast? = (nodesOf forest).map some := by
  fun_induction chains forest with
  | case1 => rfl
  | case2 node rest ihbelow ihrest =>
    have hbelow : ((chains node.children).map (node :: ·)).map List.getLast? =
        (chains node.children).map List.getLast? := by
      rw [List.map_map]
      refine List.map_congr_left fun chain hchain => ?_
      rw [Function.comp_apply, List.getLast?_cons_of_ne_nil (ne_nil_of_mem_chains hchain)]
    have hnodes : nodesOf (node :: rest) = node :: nodesOf node.children ++ nodesOf rest := by
      rw [nodesOf, List.flatMap_cons, nodes_eq]
      rfl
    rw [hnodes, List.map_append, List.map_cons, hbelow, ihbelow, ihrest]
    simp

theorem isChain_of_mem_chains {forest chain : List Node} (h : chain ∈ chains forest) :
    chain.IsChain (fun parent child => child ∈ parent.children) ∧
      ∃ root ∈ forest, chain.head? = some root := by
  fun_induction chains forest generalizing chain with
  | case1 => simp at h
  | case2 node rest ihbelow ihrest =>
    rw [List.mem_append, List.mem_cons, List.mem_map] at h
    rcases h with (rfl | ⟨below, hbelow, rfl⟩) | h
    · exact ⟨List.isChain_singleton node, node, List.mem_cons_self, rfl⟩
    · obtain ⟨hchain, child, hchild, hhead⟩ := ihbelow hbelow
      refine ⟨?_, node, List.mem_cons_self, rfl⟩
      cases below with
      | nil => cases hhead
      | cons first below =>
        obtain rfl : first = child := Option.some.inj hhead
        exact hchain.cons_cons hchild
    · obtain ⟨hchain, root, hroot, hhead⟩ := ihrest h
      exact ⟨hchain, root, List.mem_cons_of_mem node hroot, hhead⟩

section

variable {position : Position} {outer : Span} {node : Node}

@[simp] theorem chainsAround_nil : chainsAround position [] = [] := by
  simp [chainsAround]

theorem chainsAround_cons (position : Position) (node : Node) (rest : List Node) :
    chainsAround position (node :: rest) =
      ((if node.location.contains position then [[node]] else []) ++
        (chainsAround position node.children).map (node :: ·)) ++ chainsAround position rest := by
  have hbelow : ((chains node.children).map (node :: ·)).filter (endsAround position) =
      (chainsAround position node.children).map (node :: ·) := by
    rw [List.filter_map, chainsAround]
    congr 1
    refine List.filter_congr fun chain hchain => ?_
    simp [endsAround, List.getLast?_cons_of_ne_nil (ne_nil_of_mem_chains hchain)]
  rw [chainsAround, chains_cons, List.filter_append, List.filter_cons, hbelow]
  by_cases h : node.location.contains position = true <;> simp [endsAround, h, chainsAround]

theorem chainsAround_append (position : Position) (front back : List Node) :
    chainsAround position (front ++ back) =
      chainsAround position front ++ chainsAround position back := by
  induction front with
  | nil => simp
  | cons node front ih => simp only [List.cons_append, chainsAround_cons, ih, List.append_assoc]

theorem chainsAround_eq_flatMap (position : Position) (forest : List Node) :
    chainsAround position forest = forest.flatMap fun node => chainsAround position [node] := by
  induction forest with
  | nil => simp
  | cons node rest ih =>
    rw [← List.singleton_append, chainsAround_append, ih, List.singleton_append, List.flatMap_cons]

/-- The chains whose nodes all contain the position. -/
def openChains (position : Position) (forest : List Node) : List (List Node) :=
  (chains forest).filter fun chain => chain.all (·.location.contains position)

@[simp] theorem openChains_nil : openChains position [] = [] := by
  simp [openChains]

theorem openChains_cons (position : Position) (node : Node) (rest : List Node) :
    openChains position (node :: rest) =
      (if node.location.contains position then
        [node] :: (openChains position node.children).map (node :: ·) else []) ++
          openChains position rest := by
  rw [openChains, chains_cons, List.filter_append, List.filter_cons, List.filter_map]
  by_cases h : node.location.contains position = true
  · simp [h, openChains, Function.comp_def]
  · simp [h, openChains, Function.comp_def]

theorem mem_openChains {forest chain : List Node} :
    chain ∈ openChains position forest ↔
      chain ∈ chains forest ∧ ∀ node ∈ chain, node.location.contains position = true := by
  rw [openChains, List.mem_filter, List.all_eq_true]

theorem cons_mem_openChains {forest below : List Node} (hnode : node ∈ forest)
    (hcontains : node.location.contains position = true)
    (hbelow : below = [] ∨ below ∈ openChains position node.children) :
    node :: below ∈ openChains position forest := by
  obtain ⟨front, back, rfl⟩ := List.append_of_mem hnode
  clear hnode
  induction front with
  | nil =>
    rw [List.nil_append, openChains_cons, if_pos hcontains]
    refine List.mem_append_left _ ?_
    rcases hbelow with rfl | hbelow
    · exact List.mem_cons_self
    · exact List.mem_cons_of_mem _ (List.mem_map_of_mem hbelow)
  | cons other front ih =>
    rw [List.cons_append, openChains_cons]
    exact List.mem_append_right _ ih

theorem Nests.contains_of_child (h : Nests outer node) {child : Node}
    (hchild : child ∈ node.children) (hcontains : child.location.contains position = true) :
    node.location.contains position = true := by
  obtain ⟨hlocation, -, -, hchildren⟩ := h
  obtain ⟨hinner, -, hwithin, -⟩ := hchildren child hchild
  rw [hinner] at hcontains
  rw [hlocation]
  exact Span.contains_of_le hwithin hcontains

/-- Nothing below a node is around a position that the node itself does not contain. -/
theorem Nests.chainsAround_eq_nil (h : Nests outer node)
    (hout : node.location.contains position = false) : chainsAround position [node] = [] := by
  induction h with
  | @intro outer span node hlocation hordered hwithin hchildren ih =>
    have hnode := Nests.intro hlocation hordered hwithin hchildren
    have hbelow : chainsAround position node.children = [] := by
      rw [chainsAround_eq_flatMap, List.flatMap_eq_nil_iff]
      intro child hchild
      apply ih child hchild
      by_contra hin
      rw [Bool.not_eq_false] at hin
      exact Bool.false_ne_true (hout.symm.trans (hnode.contains_of_child hchild hin))
    simp [chainsAround_cons, hout, hbelow]

theorem Nests.contains_of_mem_chainsAround {forest : List Node}
    (h : ∀ node ∈ forest, ∃ outer, Nests outer node) {chain : List Node}
    (hchain : chain ∈ chainsAround position forest) {node : Node} (hnode : node ∈ chain) :
    node.location.contains position = true := by
  fun_induction chains forest generalizing chain with
  | case1 => simp at hchain
  | case2 root rest ihbelow ihrest =>
    rw [List.forall_mem_cons] at h
    obtain ⟨⟨outer, hroot⟩, hrest⟩ := h
    have hbelow : ∀ child ∈ root.children, ∃ outer, Nests outer child := by
      obtain ⟨_, _, _, hchildren⟩ := hroot
      exact fun child hchild => ⟨_, hchildren child hchild⟩
    rw [← List.singleton_append, chainsAround_append, List.mem_append] at hchain
    rcases hchain with hchain | hchain
    · have hcontains : root.location.contains position = true := by
        by_contra hout
        rw [Bool.not_eq_true] at hout
        simp [hroot.chainsAround_eq_nil hout] at hchain
      simp only [chainsAround_cons, hcontains, if_true, chainsAround_nil, List.append_nil,
        List.singleton_append, List.mem_cons, List.mem_map] at hchain
      rcases hchain with rfl | ⟨below, hmem, rfl⟩
      · obtain rfl := List.mem_singleton.1 hnode
        exact hcontains
      · rcases List.mem_cons.1 hnode with rfl | hnode
        · exact hcontains
        · exact ihbelow hbelow hmem hnode
    · exact ihrest hrest hchain hnode

/-- Where locations nest, a chain that leads to a node around the position is open. -/
theorem Nests.openChains_eq {forest : List Node} (h : ∀ node ∈ forest, ∃ outer, Nests outer node) :
    openChains position forest = chainsAround position forest := by
  refine List.filter_congr fun chain hchain => Bool.eq_iff_iff.2 ⟨fun hopen => ?_, fun hends => ?_⟩
  · rw [List.all_eq_true] at hopen
    have hlast := List.getLast?_eq_some_getLast (ne_nil_of_mem_chains hchain)
    simp [endsAround, hlast, hopen]
  · rw [List.all_eq_true]
    have haround : chain ∈ chainsAround position forest := List.mem_filter.2 ⟨hchain, hends⟩
    exact fun node hnode => Nests.contains_of_mem_chainsAround h haround hnode

end

end SuiteIndex.Node
