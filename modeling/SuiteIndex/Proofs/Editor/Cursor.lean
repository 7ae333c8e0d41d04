import SuiteIndex.Editor.Cursor
import SuiteIndex.Proofs.Node.Chains
import SuiteIndex.Proofs.Suite.Enclosure

/-! # The cursor search is exhaustive

The search enters only nodes that contain the position. Where locations nest it still
meets every node around the position, so its answer is the one that a search through the
whole tree would give: of all chains that lead to a node around the position, the last
one of the greatest length.
-/

namespace SuiteIndex.Cursor

open Node (chains chainsAround openChains openChains_cons Nests)

/-- The search after one more chain below the open nodes. -/
def Search.offer (search : Search) (chain : List Node) : Search :=
  let found := chain.reverse ++ search.stack
  { search with deepest := if search.deepest.length ≤ found.length then found else search.deepest }

@[simp] theorem Search.offer_stack (search : Search) (chain : List Node) :
    (search.offer chain).stack = search.stack := rfl

@[simp] theorem Search.foldl_offer_stack (search : Search) (found : List (List Node)) :
    (found.foldl offer search).stack = search.stack := by
  induction found generalizing search with
  | nil => rfl
  | cons chain found ih => exact (ih (search.offer chain)).trans rfl

theorem Search.foldl_offer_below (node : Node) (stack deepest : List Node)
    (found : List (List Node)) :
    (found.map (node :: ·)).foldl offer ⟨stack, deepest⟩ =
      ⟨stack, (found.foldl offer ⟨node :: stack, deepest⟩).deepest⟩ := by
  induction found generalizing deepest with
  | nil => rfl
  | cons chain found ih =>
    rw [List.map_cons, List.foldl_cons, List.foldl_cons]
    simp only [offer, List.reverse_cons, List.append_assoc, List.singleton_append]
    exact ih _

section

variable {position : Position} {node : Node} (search : Search) (parent : Option Node)

theorem finder_enter_of_contains (h : node.location.contains position = true) :
    (finder position).enter search node parent =
      (⟨node :: search.stack, (search.offer [node]).deepest⟩, .proceed) := by
  simp [finder, h, Search.offer]

theorem finder_enter_of_not_contains (h : node.location.contains position = false) :
    (finder position).enter search node parent =
      (⟨node :: search.stack, search.deepest⟩, .skip) := by
  simp [finder, h]

@[simp] theorem finder_leave :
    (finder position).leave search node parent =
      (⟨search.stack.tail, search.deepest⟩, .proceed) := rfl

end

/-- A search through a forest considers every chain of nodes that contain the position. -/
theorem walk_finder (position : Position) (parent : Option Node) (forest : List Node)
    (search : Search) :
    (finder position).walk parent forest search =
      ((openChains position forest).foldl Search.offer search, false) := by
  fun_induction chains forest generalizing parent search with
  | case1 => simp [Visitor.walk]
  | case2 node rest ihbelow ihrest =>
    rw [Visitor.walk, openChains_cons]
    by_cases hin : node.location.contains position = true
    · have hdown := Search.foldl_offer_below node search.stack (search.offer [node]).deepest
        (openChains position node.children)
      simp only [finder_enter_of_contains search parent hin, ihbelow, finder_leave,
        Search.foldl_offer_stack, List.tail_cons, ihrest, ← hdown]
      rw [hin, if_pos rfl, List.foldl_append, List.foldl_cons]
      rfl
    · rw [Bool.not_eq_true] at hin
      simp only [finder_enter_of_not_contains search parent hin, finder_leave, List.tail_cons,
        ihrest]
      rw [hin, if_neg Bool.false_ne_true, List.nil_append]

/-- The chain is the last one of the greatest length. -/
def LastLongest (chain : List Node) (found : List (List Node)) : Prop :=
  ∃ before behind, found = before ++ chain :: behind ∧
    (∀ other ∈ before, other.length ≤ chain.length) ∧
    ∀ other ∈ behind, other.length < chain.length

theorem LastLongest.mem {chain : List Node} {found : List (List Node)}
    (h : LastLongest chain found) : chain ∈ found := by
  obtain ⟨before, behind, rfl, -⟩ := h
  simp

theorem LastLongest.length_le {chain other : List Node} {found : List (List Node)}
    (h : LastLongest chain found) (hother : other ∈ found) : other.length ≤ chain.length := by
  obtain ⟨before, behind, rfl, hbefore, hbehind⟩ := h
  rcases List.mem_append.1 hother with hother | hother
  · exact hbefore other hother
  · rcases List.mem_cons.1 hother with rfl | hother
    · exact le_rfl
    · exact (hbehind other hother).le

/-- Keeping the longer chain at every step, the later one of two equal ones, leaves the
last one of the greatest length. -/
theorem lastLongest_foldl_offer (found : List (List Node)) :
    let best := (found.foldl Search.offer ⟨[], []⟩).deepest.reverse
    found = [] ∧ best = [] ∨ LastLongest best found := by
  induction found using List.reverseRecOn with
  | nil => exact .inl ⟨rfl, rfl⟩
  | append_singleton found chain ih =>
    simp only [List.foldl_append, List.foldl_cons, List.foldl_nil] at ih ⊢
    generalize hsearch : found.foldl Search.offer ⟨[], []⟩ = search at ih ⊢
    have hstack : search.stack = [] := by rw [← hsearch, Search.foldl_offer_stack]
    simp only [Search.offer, hstack, List.append_nil, List.length_reverse]
    right
    by_cases hlonger : search.deepest.length ≤ chain.length
    · rw [if_pos hlonger, List.reverse_reverse]
      refine ⟨found, [], rfl, fun other hother => ?_, by simp⟩
      rcases ih with ⟨rfl, -⟩ | ih
      · cases hother
      · have hle := ih.length_le hother
        rw [List.length_reverse] at hle
        exact hle.trans hlonger
    · rw [if_neg hlonger]
      rcases ih with ⟨rfl, hnil⟩ | ⟨before, behind, rfl, hbefore, hbehind⟩
      · simp [List.reverse_eq_nil_iff.1 hnil] at hlonger
      · refine ⟨before, behind ++ [chain], by simp, hbefore, fun other hother => ?_⟩
        rcases List.mem_append.1 hother with hother | hother
        · exact hbehind other hother
        · rw [List.mem_singleton.1 hother, List.length_reverse]
          exact Nat.lt_of_not_le hlonger

/-- The search finds the last longest chain of nodes that contain the position, if there is
one. -/
theorem lastLongest_chain_open (suite : Suite) (position : Position) :
    openChains position [.testSuite suite] = [] ∧ chain suite position = [] ∨
      LastLongest (chain suite position) (openChains position [.testSuite suite]) := by
  rw [chain, Visitor.run, walk_finder]
  exact lastLongest_foldl_offer _

/-- In a suite whose locations nest, the search finds the last longest chain, if any node
is around the position. -/
theorem lastLongest_chain {suite : Suite} {outer : Span} (h : Nests outer (.testSuite suite))
    (position : Position) :
    chainsAround position [.testSuite suite] = [] ∧ chain suite position = [] ∨
      LastLongest (chain suite position) (chainsAround position [.testSuite suite]) := by
  rw [← Nests.openChains_eq (by simpa using ⟨outer, h⟩)]
  exact lastLongest_chain_open suite position

theorem chainsAround_eq_nil_iff {position : Position} {forest : List Node} :
    chainsAround position forest = [] ↔
      ∀ node ∈ Node.nodesOf forest, node.location.contains position = false := by
  have hmap := Node.map_getLast?_chains forest
  rw [chainsAround, List.filter_eq_nil_iff]
  constructor
  · intro h node hnode
    have hmem : some node ∈ (chains forest).map List.getLast? :=
      hmap ▸ List.mem_map_of_mem hnode
    obtain ⟨path, hpath, hlast⟩ := List.mem_map.1 hmem
    simpa [Node.endsAround, hlast] using h path hpath
  · intro h path hpath
    have hmem : path.getLast? ∈ (Node.nodesOf forest).map some :=
      hmap ▸ List.mem_map_of_mem hpath
    obtain ⟨node, hnode, hlast⟩ := List.mem_map.1 hmem
    simp [Node.endsAround, ← hlast, h node hnode]

/-- The nodes around a position of a text are the last of the longest chains that lead to
a node around it, among the chains to all nodes of the suite. They are none only if no node
of the suite contains the position; each of them contains it, and each is a child of the one
before. -/
theorem chain_read_eq_last_longest (moduleName text : Text) (position : Position) :
    ∃ suite, Suite.read moduleName text = .ok suite ∧
      (chains [.testSuite suite]).map List.getLast? = (Node.testSuite suite).nodes.map some ∧
      (chain suite position = [] ↔
        ∀ node ∈ (Node.testSuite suite).nodes, node.location.contains position = false) ∧
      (chain suite position ≠ [] → LastLongest (chain suite position)
        ((chains [.testSuite suite]).filter (Node.endsAround position))) ∧
      (∀ node ∈ chain suite position, node.location.contains position = true) ∧
      (chain suite position).IsChain fun parent child => child ∈ parent.children := by
  obtain ⟨suite, outer, hsuite, hnests⟩ := Suite.exists_nests_read moduleName text
  have hnodes : Node.nodesOf [.testSuite suite] = (Node.testSuite suite).nodes := by
    simp [Node.nodesOf]
  refine ⟨suite, hsuite, hnodes ▸ Node.map_getLast?_chains _, ?_⟩
  rw [← hnodes, ← chainsAround_eq_nil_iff]
  rcases lastLongest_chain hnests position with ⟨hnone, hnil⟩ | hlast
  · simp [hnone, hnil]
  · have hmem := hlast.mem
    have hne := Node.ne_nil_of_mem_chains (List.mem_of_mem_filter hmem)
    refine ⟨⟨fun h => absurd h hne, fun h => ?_⟩, fun _ => hlast, fun node hnode => ?_, ?_⟩
    · simp [h] at hmem
    · exact Nests.contains_of_mem_chainsAround (by simpa using ⟨outer, hnests⟩) hmem hnode
    · exact (Node.isChain_of_mem_chains (List.mem_of_mem_filter hmem)).1

end SuiteIndex.Cursor
