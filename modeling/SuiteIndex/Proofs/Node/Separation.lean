import Mathlib.Data.List.Pairwise
import Mathlib.Data.List.Perm.Subperm
import SuiteIndex.Proofs.Node.Chains

/-! # Separated nodes

A tree is tidy if wherever keywords are used below a node, its children share no position.
A forest is laid inside a span if its trees are tidy, nest inside the span and share no
position. Forests in separated spans can be laid together, and from a laid forest trees can
be left out or put in another order. In a laid forest the places where keywords are used
share no position.
-/

namespace SuiteIndex

namespace Location

/-- No position belongs to both locations. -/
def Apart (a b : Location) : Prop :=
  ∀ position, a.contains position = true → b.contains position = false

theorem Apart.symm {a b : Location} (h : a.Apart b) : b.Apart a := by
  intro position hb
  by_contra ha
  rw [Bool.not_eq_false] at ha
  rw [h position ha] at hb
  cases hb

end Location

theorem Span.not_contains_of_lt {a b : Span} (h : a.stop < b.start) {position : Position}
    (ha : a.contains position = true) : b.contains position = false := by
  by_contra hb
  rw [Bool.not_eq_false] at hb
  rw [contains_eq_true] at ha hb
  exact absurd (ha.2.trans_lt (h.trans_le hb.1)) (lt_irrefl position)

namespace Node

/-- The keyword that a node uses: the one it calls, or that of a template. -/
def used : Node → List Identifier
  | callExpression call => [call.callee]
  | template setting => setting.keyword.toList
  | _ => []

/-- The keywords that are used anywhere in a tree, in the order of its nodes. -/
def uses (node : Node) : List Identifier :=
  node.nodes.flatMap used

theorem uses_eq (node : Node) : node.uses = node.used ++ node.children.flatMap uses := by
  rw [uses, nodes_eq, List.flatMap_cons, nodesOf, List.flatMap_assoc]
  rfl

@[simp] theorem uses_identifier (id : Identifier) : (identifier id).uses = [] := rfl

@[simp] theorem uses_literal (plain : Literal) : (literal plain).uses = [] := rfl

theorem identifier_mem_children {node : Node} {use : Identifier} (h : use ∈ node.used) :
    identifier use ∈ node.children := by
  cases node with
  | callExpression call => simp_all [used, children_eq, fields]
  | template setting => simp_all [used, children_eq, fields]
  | _ => cases h

def Apart (a b : Node) : Prop :=
  a.location.Apart b.location

instance : Std.Symm Apart := ⟨fun _ _ h => Location.Apart.symm h⟩

/-- Below every node where keywords are used, the children share no position. -/
inductive Tidy : Node → Prop where
  | plain {node : Node} (h : node.uses = []) : Tidy node
  | branch {node : Node} (hapart : node.children.Pairwise Apart)
    (hbelow : ∀ child ∈ node.children, Tidy child) : Tidy node

/-- Tidy trees inside a span that share no position. -/
structure Laid (outer : Span) (forest : List Node) : Prop where
  nests : ∀ node ∈ forest, Nests outer node
  tidy : ∀ node ∈ forest, Tidy node
  apart : forest.Pairwise Apart

section

variable {outer left right : Span} {node : Node} {position : Position}

theorem Nests.contains (h : Nests outer node)
    (hnode : node.location.contains position = true) : outer.contains position = true := by
  obtain ⟨hlocation, -, hwithin, -⟩ := h
  rw [hlocation] at hnode
  exact Span.contains_of_le hwithin hnode

theorem Nests.apart {a b : Node} (ha : Nests left a) (hb : Nests right b)
    (h : left.stop < right.start) : a.Apart b := by
  intro position hin
  by_contra hout
  rw [Bool.not_eq_false] at hout
  have hright := Span.not_contains_of_lt h (ha.contains hin)
  rw [hb.contains hout] at hright
  cases hright

theorem Nests.contains_of_mem_uses (h : Nests outer node) {use : Identifier}
    (huse : use ∈ node.uses) (hposition : use.location.contains position = true) :
    node.location.contains position = true := by
  induction h with
  | @intro outer span node hlocation hordered hwithin hchildren ih =>
    have hnode := Nests.intro hlocation hordered hwithin hchildren
    rw [uses_eq, List.mem_append, List.mem_flatMap] at huse
    rcases huse with huse | ⟨child, hchild, huse⟩
    · exact hnode.contains_of_child (identifier_mem_children huse) hposition
    · exact hnode.contains_of_child hchild (ih child hchild huse)

end

namespace Laid

variable {outer left right : Span} {forest front back : List Node}

theorem nil (outer : Span) : Laid outer [] := by
  constructor <;> simp

theorem single {node : Node} (hnests : Nests outer node) (htidy : Tidy node) :
    Laid outer [node] := by
  constructor <;> simp [hnests, htidy]

theorem mono (h : Laid left forest) (hle : left ≤ outer) : Laid outer forest :=
  ⟨fun node hnode => (h.nests node hnode).mono hle, h.tidy, h.apart⟩

theorem subperm (h : Laid outer forest) (hsub : front.Subperm forest) : Laid outer front := by
  refine ⟨fun node hnode => h.nests node (hsub.subset hnode),
    fun node hnode => h.tidy node (hsub.subset hnode), ?_⟩
  obtain ⟨kept, hperm, hsublist⟩ := hsub
  exact (hperm.pairwise_iff symm).1 (h.apart.sublist hsublist)

theorem append (hfront : Laid left front) (hback : Laid right back)
    (hcut : left.stop < right.start) (hleft : left ≤ outer) (hright : right ≤ outer) :
    Laid outer (front ++ back) := by
  refine ⟨fun node hnode => ?_, fun node hnode => ?_, List.pairwise_append.2
    ⟨hfront.apart, hback.apart, fun a ha b hb => ?_⟩⟩
  · rcases List.mem_append.1 hnode with hnode | hnode
    · exact (hfront.nests node hnode).mono hleft
    · exact (hback.nests node hnode).mono hright
  · exact (List.mem_append.1 hnode).elim (hfront.tidy node) (hback.tidy node)
  · exact (hfront.nests a ha).apart (hback.nests b hb) hcut

theorem flatMap {α : Type} {span : α → Span} {read : α → List Node} {items : List α}
    (h : ∀ item ∈ items, Laid (span item) (read item))
    (hcut : items.Pairwise fun a b => (span a).stop < (span b).start)
    (hle : ∀ item ∈ items, span item ≤ outer) : Laid outer (items.flatMap read) := by
  refine ⟨fun node hnode => ?_, fun node hnode => ?_, List.pairwise_flatMap.2
    ⟨fun item hitem => (h item hitem).apart, hcut.imp_of_mem fun {a b} ha hb hlt => ?_⟩⟩
  · obtain ⟨item, hitem, hnode⟩ := List.mem_flatMap.1 hnode
    exact ((h item hitem).nests node hnode).mono (hle item hitem)
  · obtain ⟨item, hitem, hnode⟩ := List.mem_flatMap.1 hnode
    exact (h item hitem).tidy node hnode
  · exact fun x hx y hy => ((h a ha).nests x hx).apart ((h b hb).nests y hy) hlt

theorem tidy_of_children {node : Node} (h : Laid outer node.children) : Tidy node :=
  .branch h.apart h.tidy

theorem eq_of_contains (h : Laid outer forest) {a b : Node} (ha : a ∈ forest) (hb : b ∈ forest)
    {position : Position} (hina : a.location.contains position = true)
    (hinb : b.location.contains position = true) : a = b := by
  by_contra hne
  have hapart := h.apart.forall ha hb hne
  rw [hapart position hina] at hinb
  cases hinb

end Laid

/-- One item is exchanged, and what it lists is found in the old list or is new. -/
theorem subperm_flatMap_set {α β : Type} {f : α → List β} {items : List α} {i : Nat}
    {before after : α} {added : List β} (hbefore : items[i]? = some before)
    (h : (f after).Subperm (f before ++ added)) :
    ((items.set i after).flatMap f).Subperm (items.flatMap f ++ added) := by
  obtain ⟨hi, rfl⟩ := List.getElem?_eq_some_iff.1 hbefore
  have hitems : items.flatMap f = (items.take i).flatMap f ++
      (f items[i] ++ (items.drop (i + 1)).flatMap f) := by
    rw [← List.flatMap_cons, ← List.flatMap_append, ← List.drop_eq_getElem_cons hi,
      List.take_append_drop]
  rw [hitems, List.set_eq_take_append_cons_drop, if_pos hi, List.flatMap_append, List.flatMap_cons]
  generalize (items.take i).flatMap f = left
  generalize (items.drop (i + 1)).flatMap f = right
  have hgrown : (left ++ (f after ++ right)).Subperm (left ++ ((f items[i] ++ added) ++ right)) :=
    (List.Subperm.refl left).append (h.append (List.Subperm.refl right))
  have hmoved : (left ++ ((f items[i] ++ added) ++ right)).Perm
      (left ++ (f items[i] ++ right) ++ added) := by
    rw [List.append_assoc, List.append_assoc, List.append_assoc]
    exact (List.perm_append_comm.append_left (f items[i])).append_left left
  exact hgrown.trans hmoved.subperm

/-- One slot takes in further children or gives some up, and the others are kept. -/
theorem subperm_of_slot {old new : Node} {before after added : List Node} {slot : SlotName}
    (i : Nat) (hold : old.fields[i]? = some (slot, before))
    (hnew : new.fields = old.fields.set i (slot, after)) (h : after.Subperm (before ++ added)) :
    new.children.Subperm (old.children ++ added) := by
  rw [children_eq, children_eq, hnew]
  exact subperm_flatMap_set hold h

theorem subperm_of_replaced {old new added : Node} {before : List Node} {slot : SlotName}
    (i : Nat) (hold : old.fields[i]? = some (slot, before))
    (hnew : new.fields = old.fields.set i (slot, [added])) :
    new.children.Subperm (old.children ++ [added]) :=
  subperm_of_slot i hold hnew (List.sublist_append_right before [added]).subperm

theorem subperm_of_appended {α : Type} {part : α → Node} {items : List α} {item : α}
    {old new : Node} {slot : SlotName} (i : Nat)
    (hold : old.fields[i]? = some (slot, items.map part))
    (hnew : new.fields = old.fields.set i (slot, (items ++ [item]).map part)) :
    new.children.Subperm (old.children ++ [part item]) :=
  subperm_of_slot i hold hnew (by rw [List.map_append, List.map_singleton])

theorem subperm_of_merge {left right new : Node}
    (h : List.Forall₂ (fun slot sides => slot.2.Subperm (sides.1.2 ++ sides.2.2))
      new.fields (left.fields.zip right.fields)) :
    new.children.Subperm (left.children ++ right.children) := by
  simp only [children_eq]
  generalize left.fields = front at h ⊢
  generalize right.fields = back at h ⊢
  generalize new.fields = slots at h ⊢
  induction front generalizing back slots with
  | nil =>
    cases h
    exact List.nil_subperm
  | cons a front ih =>
    cases back with
    | nil =>
      cases h
      exact List.nil_subperm
    | cons b back =>
      cases h with
      | cons hslot hrest =>
        have hboth := hslot.append (ih back _ hrest)
        simp only [List.flatMap_cons]
        refine hboth.trans (List.Perm.subperm ?_)
        simp only [List.append_assoc]
        refine List.Perm.append_left _ ?_
        rw [← List.append_assoc, ← List.append_assoc]
        exact List.perm_append_comm.append_right _

theorem pairwise_used (node : Node) (r : Identifier → Identifier → Prop) :
    node.used.Pairwise r := by
  cases node with
  | callExpression call => exact List.pairwise_singleton _ _
  | template setting =>
    unfold used
    cases setting.keyword <;> simp
  | _ => exact List.Pairwise.nil

theorem apart_uses {outer : Span} {a b : Node} (ha : Nests outer a) (hb : Nests outer b)
    (h : a.Apart b) {u v : Identifier} (hu : u ∈ a.uses) (hv : v ∈ b.uses) :
    u.location.Apart v.location := by
  intro position hin
  by_contra hout
  rw [Bool.not_eq_false] at hout
  have hnot := h position (ha.contains_of_mem_uses hu hin)
  rw [hb.contains_of_mem_uses hv hout] at hnot
  cases hnot

theorem pairwise_flatMap_uses {outer : Span} {forest : List Node}
    (hnests : ∀ node ∈ forest, Nests outer node)
    (hapart : forest.Pairwise Apart)
    (h : ∀ node ∈ forest, node.uses.Pairwise fun u v => u.location.Apart v.location) :
    (forest.flatMap uses).Pairwise fun u v => u.location.Apart v.location := by
  refine List.pairwise_flatMap.2 ⟨h, hapart.imp_of_mem fun {a b} ha hb hab u hu v hv => ?_⟩
  exact apart_uses (hnests a ha) (hnests b hb) hab hu hv

/-- The keywords used below a node share no position with the one it uses itself. -/
theorem apart_used {outer : Span} {node : Node} (hnests : ∀ child ∈ node.children, Nests outer child)
    (hapart : node.children.Pairwise Apart) {u v : Identifier}
    (hu : u ∈ node.used) {child : Node} (hchild : child ∈ node.children) (hv : v ∈ child.uses) :
    u.location.Apart v.location := by
  have hname := identifier_mem_children hu
  have hne : identifier u ≠ child := by
    rintro rfl
    cases hv
  have hchildren := hapart.forall hname hchild hne
  intro position hin
  by_contra hout
  rw [Bool.not_eq_false] at hout
  have hnot := hchildren position hin
  rw [(hnests child hchild).contains_of_mem_uses hv hout] at hnot
  cases hnot

theorem Tidy.pairwise_uses {outer : Span} {node : Node} (h : Tidy node) (hnests : Nests outer node) :
    node.uses.Pairwise fun u v => u.location.Apart v.location := by
  induction h generalizing outer with
  | plain huses => simp [huses]
  | @branch node hapart _ ih =>
    obtain ⟨_, _, _, hchildren⟩ := hnests
    rw [uses_eq, List.pairwise_append]
    refine ⟨pairwise_used node _, ?_, fun u hu v hv => ?_⟩
    · exact pairwise_flatMap_uses hchildren hapart fun child hchild =>
        ih child hchild (hchildren child hchild)
    · obtain ⟨child, hchild, hv⟩ := List.mem_flatMap.1 hv
      exact apart_used hchildren hapart hu hchild hv

theorem Laid.pairwise_uses {outer : Span} {forest : List Node} (h : Laid outer forest) :
    (forest.flatMap uses).Pairwise fun u v => u.location.Apart v.location :=
  pairwise_flatMap_uses h.nests h.apart fun node hnode =>
    (h.tidy node hnode).pairwise_uses (h.nests node hnode)

theorem Nests.exists_contains {outer : Span} {node : Node} (h : Nests outer node)
    {use : Identifier} (huse : use ∈ node.uses) :
    ∃ position, use.location.contains position = true := by
  induction h with
  | @intro outer span node _ _ _ hchildren ih =>
    rw [uses_eq, List.mem_append, List.mem_flatMap] at huse
    rcases huse with huse | ⟨child, hchild, huse⟩
    · obtain @⟨_, own, _, hlocation, hordered, -, -⟩ := hchildren _ (identifier_mem_children huse)
      refine ⟨own.start, ?_⟩
      rw [show use.location = .parsed own from hlocation]
      exact Span.contains_eq_true.2 ⟨le_rfl, hordered⟩
    · exact ih child hchild huse

theorem Laid.pairwise_locations {outer : Span} {forest : List Node} (h : Laid outer forest) :
    (forest.flatMap uses).Pairwise fun u v => u.location ≠ v.location := by
  refine h.pairwise_uses.imp_of_mem fun {u v} hu _ hapart heq => ?_
  obtain ⟨node, hnode, hu⟩ := List.mem_flatMap.1 hu
  obtain ⟨position, hposition⟩ := (h.nests node hnode).exists_contains hu
  have hnot := hapart position hposition
  rw [← heq, hposition] at hnot
  cases hnot

end Node

namespace Suite
open Node

/-- What stands in the tables of a suite. -/
def entries (suite : Suite) : List Node :=
  (testSuite suite).children.flatMap children

theorem uses_testSuite (suite : Suite) :
    (testSuite suite).uses = suite.entries.flatMap uses := by
  have htable : ∀ table ∈ (testSuite suite).children,
      table.uses = table.children.flatMap uses := by
    intro table htable
    have hused : table.used = [] := by
      simp only [children_eq, fields, List.flatMap_cons, List.flatMap_nil,
        List.mem_append, List.mem_map, List.not_mem_nil, or_false] at htable
      rcases htable with ⟨_, _, rfl⟩ | ⟨_, _, rfl⟩ | ⟨_, _, rfl⟩ | ⟨_, _, rfl⟩ <;> rfl
    rw [uses_eq, hused, List.nil_append]
  rw [uses_eq, entries, List.flatMap_assoc]
  exact List.flatMap_congr htable

theorem subperm_entries {α : Type} {part : α → Node} {merged b : α} {a? : Option α}
    {suite changed : Suite} {slot : SlotName} (i : Nat)
    (hold : (testSuite suite).fields[i]? = some (slot, a?.toList.map part))
    (hnew : (testSuite changed).fields = (testSuite suite).fields.set i (slot, [part merged]))
    (h : (part merged).children.Subperm
      ((a?.toList.map part).flatMap children ++ (part b).children)) :
    changed.entries.Subperm (suite.entries ++ (part b).children) := by
  rw [entries, entries, children_eq, children_eq, List.flatMap_assoc, List.flatMap_assoc, hnew]
  exact subperm_flatMap_set hold (by simpa using h)

end Suite

end SuiteIndex
