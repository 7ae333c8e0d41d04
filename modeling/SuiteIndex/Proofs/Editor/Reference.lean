import SuiteIndex.Editor.Usage
import SuiteIndex.Proofs.Editor.Cursor
import SuiteIndex.Proofs.Node.Collect
import SuiteIndex.Proofs.Node.Separation

/-! # What a cursor on a used keyword refers to

At any position of a place where a keyword is used, the longest chains of nodes around the
position end at the name of that keyword, below the call or the template that uses it. So
the reference under the cursor is the use itself. This takes a suite in which the entries
of all tables together are laid: tables of one kind that were merged may span each other.
-/

namespace SuiteIndex

theorem Suite.keywordUses_eq (suite : Suite) : suite.keywordUses = (Node.testSuite suite).uses := by
  have hcollect (uses : List Identifier) (nodes : List Node) :
      nodes.foldl Usage.collect uses = uses ++ nodes.flatMap Node.used := by
    induction nodes generalizing uses with
    | nil => simp
    | cons node nodes ih =>
      have hnode : Usage.collect uses node = uses ++ node.used := by
        cases node <;> simp [Usage.collect, Node.used]
      rw [List.foldl_cons, ih, hnode, List.append_assoc, List.flatMap_cons]
  rw [keywordUses, Visitor.run, Visitor.walk_onEnter_proceed, hcollect]
  simp [Node.nodesOf, Node.uses]

namespace Cursor

open Node (chainsAround chainsAround_cons chainsAround_eq_flatMap Nests Tidy Laid)

theorem mem_chainsAround {position : Position} {forest chain : List Node} :
    chain ∈ chainsAround position forest ↔
      ∃ node ∈ forest, chain ∈ chainsAround position [node] := by
  rw [chainsAround_eq_flatMap position forest, List.mem_flatMap]

theorem mem_chainsAround_single {position : Position} {node : Node} {chain : List Node}
    (h : chain ∈ chainsAround position [node]) :
    chain = [node] ∨ ∃ inner ∈ chainsAround position node.children, node :: inner = chain := by
  rw [chainsAround_cons, Node.chainsAround_nil, List.append_nil, List.mem_append, List.mem_map] at h
  refine h.imp (fun hsingle => ?_) id
  split at hsingle
  · exact List.mem_singleton.1 hsingle
  · cases hsingle

theorem cons_mem_chainsAround {position : Position} {node : Node} {inner : List Node}
    (h : inner ∈ chainsAround position node.children) :
    node :: inner ∈ chainsAround position [node] := by
  simp [chainsAround_cons, h]

theorem mem_chainsAround_iff {outer : Span} {forest : List Node} (hlaid : Laid outer forest)
    {node : Node} (hnode : node ∈ forest) {position : Position}
    (hin : node.location.contains position = true) (chain : List Node) :
    chain ∈ chainsAround position forest ↔ chain ∈ chainsAround position [node] := by
  rw [mem_chainsAround]
  refine ⟨fun ⟨tree, htree, hchain⟩ => ?_, fun hchain => ⟨node, hnode, hchain⟩⟩
  have htreein : tree.location.contains position = true := by
    by_contra hout
    rw [Bool.not_eq_true] at hout
    simp [(hlaid.nests tree htree).chainsAround_eq_nil hout] at hchain
  obtain rfl := hlaid.eq_of_contains htree hnode htreein hin
  exact hchain

/-- The longest of the chains all end at a use of the same keyword. -/
structure Pinned (use : Identifier) (found : List (List Node)) (length : Nat) : Prop where
  two_le : 2 ≤ length
  exists_mem : ∃ chain ∈ found, chain.length = length
  of_mem : ∀ chain ∈ found, chain.length < length ∨
    chain.length = length ∧ reference? chain = some (.keyword use)

theorem reference?_cons (node : Node) {chain : List Node} (h : 2 ≤ chain.length) :
    reference? (node :: chain) = reference? chain := by
  obtain ⟨last, parent, rest, hrest⟩ : ∃ last parent rest, chain.reverse = last :: parent :: rest := by
    match hchain : chain.reverse with
    | last :: parent :: rest => exact ⟨last, parent, rest, rfl⟩
    | [last] => simp [List.reverse_eq_iff.1 hchain] at h
    | [] => simp [List.reverse_eq_nil_iff.1 hchain] at h
  simp only [reference?, List.reverse_cons, hrest, List.cons_append]
  cases last <;> rfl

namespace Pinned

variable {use : Identifier} {position : Position} {node : Node} {forest : List Node} {length : Nat}

theorem below (h : Pinned use (chainsAround position (forest.flatMap Node.children)) length) :
    Pinned use (chainsAround position forest) (length + 1) := by
  obtain ⟨htwo, ⟨chain, hchain, hlength⟩, hof⟩ := h
  refine ⟨by omega, ?_, fun other hother => ?_⟩
  · obtain ⟨child, hchild, hchain⟩ := mem_chainsAround.1 hchain
    obtain ⟨node, hnode, hchild⟩ := List.mem_flatMap.1 hchild
    have hbelow := cons_mem_chainsAround (mem_chainsAround.2 ⟨child, hchild, hchain⟩)
    exact ⟨node :: chain, mem_chainsAround.2 ⟨node, hnode, hbelow⟩, by simp [hlength]⟩
  · obtain ⟨node, hnode, hother⟩ := mem_chainsAround.1 hother
    rcases mem_chainsAround_single hother with rfl | ⟨inner, hinner, rfl⟩
    · exact .inl (by simp only [List.length_singleton]; omega)
    · obtain ⟨child, hchild, hinner⟩ := mem_chainsAround.1 hinner
      have hmem : child ∈ forest.flatMap Node.children := List.mem_flatMap.2 ⟨node, hnode, hchild⟩
      rw [List.length_cons]
      rcases hof inner (mem_chainsAround.2 ⟨child, hmem, hinner⟩) with hshort | ⟨hlong, hreference⟩
      · exact .inl (by omega)
      · exact .inr ⟨by omega, (reference?_cons node (by omega)).trans hreference⟩

theorem among {outer : Span} (h : Pinned use (chainsAround position [node]) length)
    (hlaid : Laid outer forest) (hnode : node ∈ forest)
    (hin : node.location.contains position = true) :
    Pinned use (chainsAround position forest) length := by
  have hchains := mem_chainsAround_iff hlaid hnode hin
  refine ⟨h.two_le, ?_, fun chain hchain => h.of_mem chain ((hchains chain).1 hchain)⟩
  obtain ⟨chain, hchain, hlength⟩ := h.exists_mem
  exact ⟨chain, (hchains chain).2 hchain, hlength⟩

end Pinned

theorem chainsAround_identifier {use : Identifier} {position : Position}
    (h : use.location.contains position = true) :
    chainsAround position [.identifier use] = [[.identifier use]] := by
  have hlocation : (Node.identifier use).location.contains position = true := h
  simp [chainsAround_cons, hlocation]

theorem pinned_of_mem_used {outer : Span} {node : Node} {use : Identifier}
    (hlaid : Laid outer node.children) (huse : use ∈ node.used) {position : Position}
    (hin : use.location.contains position = true) :
    Pinned use (chainsAround position [node]) 2 := by
  have hname := Node.identifier_mem_children huse
  have hbelow (chain : List Node) :
      chain ∈ chainsAround position node.children ↔ chain = [.identifier use] := by
    rw [mem_chainsAround_iff hlaid hname hin, chainsAround_identifier hin, List.mem_singleton]
  have hreference : Reference.inside? node use = some (.keyword use) := by
    cases node with
    | callExpression call => simp_all [Node.used, Reference.inside?]
    | template setting => simp_all [Node.used, Reference.inside?]
    | _ => cases huse
  refine ⟨le_rfl, ⟨[node, .identifier use], ?_, rfl⟩, fun other hother => ?_⟩
  · exact cons_mem_chainsAround ((hbelow _).2 rfl)
  · rcases mem_chainsAround_single hother with rfl | ⟨inner, hinner, rfl⟩
    · exact .inl (by simp)
    · rw [hbelow] at hinner
      subst hinner
      exact .inr ⟨rfl, hreference⟩

theorem exists_pinned {outer : Span} {node : Node} (htidy : Tidy node) (hnests : Nests outer node)
    {use : Identifier} (huse : use ∈ node.uses) {position : Position}
    (hin : use.location.contains position = true) :
    ∃ length, Pinned use (chainsAround position [node]) length := by
  induction htidy generalizing outer with
  | plain hnone => simp [hnone] at huse
  | @branch node hapart htidy ih =>
    obtain @⟨_, span, _, _, _, _, hchildren⟩ := hnests
    have hlaid : Laid span node.children := ⟨hchildren, htidy, hapart⟩
    rw [Node.uses_eq, List.mem_append, List.mem_flatMap] at huse
    rcases huse with huse | ⟨child, hchild, huse⟩
    · exact ⟨2, pinned_of_mem_used hlaid huse hin⟩
    · obtain ⟨length, hpinned⟩ := ih child hchild (hchildren child hchild) huse
      have hinchild := (hchildren child hchild).contains_of_mem_uses huse hin
      exact ⟨length + 1, Pinned.below (by simpa using hpinned.among hlaid hchild hinchild)⟩

theorem reference?_chain {suite : Suite} {outer around : Span}
    (hnests : Nests outer (.testSuite suite)) (hlaid : Laid around suite.entries)
    {use : Identifier} (huse : use ∈ (Node.testSuite suite).uses) {position : Position}
    (hin : use.location.contains position = true) :
    reference? (chain suite position) = some (.keyword use) := by
  rw [Suite.uses_testSuite, List.mem_flatMap] at huse
  obtain ⟨entry, hentry, huse⟩ := huse
  obtain ⟨length, hpinned⟩ :=
    exists_pinned (hlaid.tidy entry hentry) (hlaid.nests entry hentry) huse hin
  have hinentry := (hlaid.nests entry hentry).contains_of_mem_uses huse hin
  have hroot : Pinned use (chainsAround position [.testSuite suite]) (length + 1 + 1) :=
    Pinned.below (by simpa using (hpinned.among hlaid hentry hinentry).below)
  obtain ⟨longest, hlongest, hlength⟩ := hroot.exists_mem
  rcases lastLongest_chain hnests position with ⟨hnone, -⟩ | hlast
  · simp [hnone] at hlongest
  · have hle := hlast.length_le hlongest
    rcases hroot.of_mem _ hlast.mem with hshort | ⟨-, hreference⟩
    · omega
    · exact hreference

end Cursor

end SuiteIndex
