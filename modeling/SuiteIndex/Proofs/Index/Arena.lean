import Mathlib.Data.Set.Basic
import Mathlib.Logic.Function.Basic
import SuiteIndex.Index.Arena
import SuiteIndex.Index.Container

/-! # The arena holds the tree

From each link of an arena on, the nodes hold a branch of the search tree, at places that the
branch shares with no other one. So a change at one node changes one branch, a walk with a stack
of frames shows the values in the order of the branch, and after any sequence of edits the arena
gives the answers of the tree.
-/

namespace SuiteIndex

namespace Arena

variable {α : Type}

/-- Where a search goes on from a node of this character, unless it ends there. -/
def advance (c : Char) (rest : Text) (char : Char) : Option (Side × Char × Text) :=
  if c.toNat < char.toNat then some (.less, c, rest)
  else if char.toNat < c.toNat then some (.greater, c, rest)
  else match rest with
    | [] => none
    | d :: rest => some (.same, d, rest)

theorem advance_shrinks {c d char : Char} {rest rest' : Text} {side : Side}
    (h : advance c rest char = some (side, d, rest')) :
    rest'.length < rest.length ∨ rest' = rest ∧ c.toNat ≠ char.toNat := by
  unfold advance at h
  split at h
  · cases h
    exact .inr ⟨rfl, by omega⟩
  · split at h
    · cases h
      exact .inr ⟨rfl, by omega⟩
    · cases rest with
      | nil => cases h
      | cons e rest =>
        cases h
        exact .inl (Nat.lt_succ_self _)

/-- The branch of a node with these branches below it. -/
def Node.branch (node : Node α) (below : Side → Branch α) : Branch α :=
  .node node.char node.values (below .less) (below .same) (below .greater)

open Function (update update_self update_of_ne)

theorem find?_branch (c : Char) (rest : Text) (node : Node α) (below : Side → Branch α) :
    (node.branch below).find? c rest = match advance c rest node.char with
      | none => some (node.values, below .same)
      | some (side, d, rest) => (below side).find? d rest := by
  by_cases hless : c.toNat < node.char.toNat
  · simp [Node.branch, Branch.find?, advance, hless]
  · by_cases hgreater : node.char.toNat < c.toNat
    · simp [Node.branch, Branch.find?, advance, hless, hgreater]
    · cases rest <;> simp [Node.branch, Branch.find?, advance, hless, hgreater]

theorem modify_branch (f : List α → List α) (c : Char) (rest : Text) (node : Node α)
    (below : Side → Branch α) :
    (node.branch below).modify f c rest = match advance c rest node.char with
      | none => (node.mapValues f).branch below
      | some (side, d, rest) =>
        node.branch (update below side ((below side).modify f d rest)) := by
  by_cases hless : c.toNat < node.char.toNat
  · simp [Node.branch, Branch.modify, advance, hless]
  · by_cases hgreater : node.char.toNat < c.toNat
    · simp [Node.branch, Branch.modify, advance, hless, hgreater]
    · cases rest <;> simp [Node.branch, Node.mapValues, Branch.modify, advance, hless, hgreater]

theorem insert_branch (a : α) (c : Char) (rest : Text) (node : Node α) (below : Side → Branch α) :
    (node.branch below).insert a c rest = match advance c rest node.char with
      | none => (node.mapValues (· ++ [a])).branch below
      | some (side, d, rest) =>
        node.branch (update below side ((below side).insert a d rest)) := by
  by_cases hless : c.toNat < node.char.toNat
  · simp [Node.branch, Branch.insert, advance, hless]
  · by_cases hgreater : node.char.toNat < c.toNat
    · simp [Node.branch, Branch.insert, advance, hless, hgreater]
    · cases rest <;> simp [Node.branch, Node.mapValues, Branch.insert, advance, hless, hgreater]

/-- The nodes from a link on hold a branch at these places, each of them only once. -/
inductive Holds (nodes : Array (Node α)) : Option Nat → Branch α → Set Nat → Prop where
  | leaf : Holds nodes none .leaf ∅
  | node {id : Nat} {node : Node α} {below : Side → Branch α} {places : Side → Set Nat}
    (hnode : nodes[id]? = some node)
    (hbelow : ∀ side, Holds nodes (node.child side) (below side) (places side))
    (hself : ∀ side, id ∉ places side)
    (hapart : ∀ side other, side ≠ other → ∀ place ∈ places side, place ∉ places other) :
    Holds nodes (some id) (node.branch below) {place | place = id ∨ ∃ side, place ∈ places side}

namespace Holds

variable {nodes next : Array (Node α)} {current : Option Nat} {branch : Branch α}
  {places : Set Nat}

theorem lt_size (h : Holds nodes current branch places) : ∀ place ∈ places, place < nodes.size := by
  induction h with
  | leaf => simp
  | node hnode _ _ _ ih =>
    rintro place (rfl | ⟨side, hplace⟩)
    · exact (Array.getElem?_eq_some_iff.1 hnode).1
    · exact ih side place hplace

theorem congr (h : Holds nodes current branch places)
    (hsame : ∀ place ∈ places, next[place]? = nodes[place]?) :
    Holds next current branch places := by
  induction h with
  | leaf => exact .leaf
  | node hnode _ hself hapart ih =>
    refine .node ((hsame _ (.inl rfl)).trans hnode) (fun side => ?_) hself hapart
    exact ih side fun place hplace => hsame place (.inr ⟨side, hplace⟩)

end Holds

/-- A node with what stands below it on each side. -/
structure Fork (nodes : Array (Node α)) (id : Nat) (node : Node α) (below : Side → Branch α)
    (places : Side → Set Nat) : Prop where
  found : nodes[id]? = some node
  sides : ∀ side, Holds nodes (node.child side) (below side) (places side)
  self : ∀ side, id ∉ places side
  apart : ∀ side other, side ≠ other → ∀ place ∈ places side, place ∉ places other

/-- The places of a node and of all nodes below it. -/
def spread (id : Nat) (places : Side → Set Nat) : Set Nat :=
  {place | place = id ∨ ∃ side, place ∈ places side}

theorem Holds.exists_fork {nodes : Array (Node α)} {id : Nat} {branch : Branch α}
    {places : Set Nat} (h : Holds nodes (some id) branch places) :
    ∃ node below taken, Fork nodes id node below taken ∧ branch = node.branch below ∧
      places = spread id taken := by
  cases h with
  | node hnode hbelow hself hapart => exact ⟨_, _, _, ⟨hnode, hbelow, hself, hapart⟩, rfl, rfl⟩

namespace Fork

variable {nodes next : Array (Node α)} {id : Nat} {node changed : Node α}
  {below : Side → Branch α} {places : Side → Set Nat}

theorem holds (h : Fork nodes id node below places) :
    Holds nodes (some id) (node.branch below) (spread id places) :=
  .node h.found h.sides h.self h.apart

theorem replace (h : Fork nodes id node below places) (side : Side) {branch : Branch α}
    {taken : Set Nat} (hnode : next[id]? = some changed)
    (hchild : ∀ other, other ≠ side → changed.child other = node.child other)
    (hnew : Holds next (changed.child side) branch taken) (hfree : id ∉ taken)
    (htaken : ∀ other, other ≠ side → ∀ place ∈ taken, place ∉ places other)
    (hsame : ∀ other, other ≠ side → ∀ place ∈ places other, next[place]? = nodes[place]?) :
    Fork next id changed (update below side branch) (update places side taken) := by
  refine ⟨hnode, fun other => ?_, fun other => ?_, fun other third hne place hplace => ?_⟩
  · by_cases hother : other = side
    · subst hother
      simpa using hnew
    · rw [update_of_ne hother, update_of_ne hother, hchild other hother]
      exact (h.sides other).congr (hsame other hother)
  · by_cases hother : other = side
    · subst hother
      simpa using hfree
    · rw [update_of_ne hother]
      exact h.self other
  · by_cases hother : other = side <;> by_cases hthird : third = side
    · exact absurd (hother.trans hthird.symm) hne
    · subst hother
      rw [update_self] at hplace
      rw [update_of_ne hthird]
      exact htaken third hthird place hplace
    · subst hthird
      rw [update_of_ne hother] at hplace
      rw [update_self]
      exact fun hmem => htaken other hother place hmem hplace
    · rw [update_of_ne hother] at hplace
      rw [update_of_ne hthird]
      exact h.apart other third hne place hplace

theorem mapValues {f : List α → List α} (h : Fork nodes id node below places)
    (hnode : next[id]? = some (node.mapValues f))
    (hsame : ∀ place, place ≠ id → next[place]? = nodes[place]?) :
    Fork next id (node.mapValues f) below places := by
  refine ⟨hnode, fun side => ?_, h.self, h.apart⟩
  rw [Node.child_mapValues]
  exact (h.sides side).congr fun place hplace =>
    hsame place fun heq => h.self side (heq ▸ hplace)

end Fork

theorem getElem?_mapValues_self {arena : Arena α} {id : Nat} {node : Node α}
    (h : arena.nodes[id]? = some node) (f : List α → List α) :
    (arena.mapValues id f).nodes[id]? = some (node.mapValues f) := by
  simp [mapValues, Array.getElem?_modify, h]

theorem getElem?_mapValues_of_ne {arena : Arena α} {id place : Nat} (h : place ≠ id)
    (f : List α → List α) : (arena.mapValues id f).nodes[place]? = arena.nodes[place]? := by
  simp [mapValues, Array.getElem?_modify, Ne.symm h]

theorem nodes_mapValues_congr {arena : Arena α} {id : Nat} {node : Node α}
    (h : arena.nodes[id]? = some node) {f g : List α → List α}
    (hvalues : f node.values = g node.values) :
    (arena.mapValues id f).nodes = (arena.mapValues id g).nodes := by
  refine Array.ext_getElem? fun place => ?_
  by_cases hplace : place = id
  · rw [hplace, getElem?_mapValues_self h, getElem?_mapValues_self h, Node.mapValues,
      Node.mapValues, hvalues]
  · rw [getElem?_mapValues_of_ne hplace, getElem?_mapValues_of_ne hplace]

theorem findFrom_some {arena : Arena α} {id : Nat} {node : Node α}
    (h : arena.nodes[id]? = some node) (c : Char) (rest : Text) :
    arena.findFrom c rest (some id) = match advance c rest node.char with
      | none => some id
      | some (side, d, rest) => arena.findFrom d rest (node.child side) := by
  rw [findFrom]
  split
  · rename_i hnone
    cases h.symm.trans hnone
  · rename_i found hfound
    obtain rfl : node = found := Option.some.inj (h.symm.trans hfound)
    by_cases hless : c.toNat < node.char.toNat
    · simp [advance, hless]
    · by_cases hgreater : node.char.toNat < c.toNat
      · simp [advance, hless, hgreater]
      · cases rest <;> simp [advance, hless, hgreater]

/-- What a search for the key `c :: rest` comes to. Either there is no node for the key, or there
is one with its values and the longer keys, and changing the values there changes those of the
key. -/
inductive Finds (arena : Arena α) (current : Option Nat) (branch : Branch α) (places : Set Nat)
    (c : Char) (rest : Text) : Prop where
  | absent (hplace : arena.findFrom c rest current = none) (hfind : branch.find? c rest = none)
    (hmodify : ∀ f, branch.modify f c rest = branch)
  | present {id : Nat} {node : Node α} {longer : Branch α} {taken : Set Nat}
    (hplace : arena.findFrom c rest current = some id) (hnode : arena.nodes[id]? = some node)
    (hid : id ∈ places) (hfind : branch.find? c rest = some (node.values, longer))
    (hlonger : Holds arena.nodes node.same longer taken)
    (hmodify : ∀ f, Holds (arena.mapValues id f).nodes current (branch.modify f c rest) places)

theorem Holds.finds {arena : Arena α} {current : Option Nat} {branch : Branch α}
    {places : Set Nat} (h : Holds arena.nodes current branch places) (c : Char) (rest : Text) :
    arena.Finds current branch places c rest := by
  induction h generalizing c rest with
  | leaf => exact .absent (by rw [findFrom]) rfl fun _ => rfl
  | @node id node below taken hnode hbelow hself hapart ih =>
    have hfork : Fork arena.nodes id node below taken := ⟨hnode, hbelow, hself, hapart⟩
    have hfrom := findFrom_some hnode c rest
    have hfind := find?_branch c rest node below
    have hmodify (f : List α → List α) := modify_branch f c rest node below
    cases hadvance : advance c rest node.char with
    | none =>
      simp only [hadvance] at hfrom hfind hmodify
      refine .present hfrom hnode (.inl rfl) hfind (hbelow .same) fun f => ?_
      rw [hmodify]
      exact (hfork.mapValues (getElem?_mapValues_self hnode f)
        fun _ hne => getElem?_mapValues_of_ne hne f).holds
    | some next =>
      obtain ⟨side, d, rest'⟩ := next
      simp only [hadvance] at hfrom hfind hmodify
      cases ih side d rest' with
      | absent hplace hnone hkept =>
        refine .absent (hfrom.trans hplace) (hfind.trans hnone) fun f => ?_
        rw [hmodify, hkept, Function.update_eq_self]
      | @present found inner longer _ hplace hinner hid hsome hlonger hchanged =>
        refine .present (hfrom.trans hplace) hinner (.inr ⟨side, hid⟩) (hfind.trans hsome) hlonger
          fun f => ?_
        -- The values change below the node on one side, which shares no place with the others.
        have hne : id ≠ found := fun heq => hself side (heq ▸ hid)
        have hsame : ∀ other, other ≠ side → ∀ place ∈ taken other,
            (arena.mapValues found f).nodes[place]? = arena.nodes[place]? := by
          intro other hother place hplace
          refine getElem?_mapValues_of_ne (fun heq => ?_) f
          exact hapart side other hother.symm found hid (heq ▸ hplace)
        have hreplaced := (hfork.replace side ((getElem?_mapValues_of_ne hne f).trans hnode)
          (fun _ _ => rfl) (hchanged f) (hself side) (hapart side · ·.symm) hsame).holds
        rw [hmodify]
        rwa [Function.update_eq_self] at hreplaced

/-- Another branch grew at a link, at these places and at new ones; all other nodes are the
same. -/
structure Regrown (arena next : Arena α) (link : Link) (branch : Branch α) (places : Set Nat) :
    Prop where
  holds : ∃ taken, Holds next.nodes (next.follow link) branch taken ∧
    ∀ place ∈ taken, place ∈ places ∨ arena.nodes.size ≤ place
  size_le : arena.nodes.size ≤ next.nodes.size
  root : link ≠ .root → next.root = arena.root
  parent : ∀ parent side, link = .child parent side → next.nodes[parent]? =
    arena.nodes[parent]?.map (·.setChild (next.follow link) side)
  others : ∀ place < arena.nodes.size, place ∉ places → link.parent? ≠ some place →
    next.nodes[place]? = arena.nodes[place]?
  atEmpty : next.atEmpty = arena.atEmpty

/-- The node that a link belongs to exists and is not among these places. -/
def Link.Outside (link : Link) (arena : Arena α) (places : Set Nat) : Prop :=
  ∀ parent, link.parent? = some parent → parent < arena.nodes.size ∧ parent ∉ places

theorem Regrown.refl {arena : Arena α} {link : Link} {branch : Branch α} {places : Set Nat}
    (h : Holds arena.nodes (arena.follow link) branch places) :
    arena.Regrown arena link branch places where
  holds := ⟨places, h, fun _ => .inl⟩
  size_le := le_rfl
  root := fun _ => rfl
  parent := by
    rintro parent side rfl
    cases hnode : arena.nodes[parent]? <;> simp [follow, hnode]
  others := fun _ _ _ _ => rfl
  atEmpty := rfl

theorem Regrown.attach {arena : Arena α} {link : Link} (hlink : link.Outside arena ∅) (c : Char) :
    (arena.attach link c).follow link = some arena.nodes.size ∧
      arena.Regrown (arena.attach link c) link ((Node.new c).branch fun _ => .leaf) ∅ := by
  have hfollow : (arena.attach link c).follow link = some arena.nodes.size := by
    cases link with
    | root => rfl
    | child parent side =>
      have hparent := (hlink parent rfl).1
      obtain ⟨node, hnode⟩ : ∃ node, arena.nodes[parent]? = some node :=
        ⟨_, Array.getElem?_eq_getElem hparent⟩
      simp [follow, Arena.attach, getElem?_linked_parent hparent, hnode, Node.child_setChild]
  refine ⟨hfollow, ?_, ?_, ?_, ?_, ?_, rfl⟩
  · have hnew : Holds (arena.attach link c).nodes (some arena.nodes.size)
        ((Node.new c).branch fun _ => .leaf)
        {place | place = arena.nodes.size ∨ ∃ _ : Side, place ∈ (∅ : Set Nat)} :=
      .node (getElem?_linked_size _ c link) (fun side => by cases side <;> exact .leaf)
        (by simp) (by simp)
    rw [hfollow]
    exact ⟨_, hnew, by simp⟩
  · simp [Arena.attach, size_linked]
  · intro hroot
    cases link with
    | root => exact absurd rfl hroot
    | child parent side => rfl
  · rintro parent side rfl
    rw [hfollow]
    exact getElem?_linked_parent (hlink parent rfl).1
  · exact fun place hplace _ hparent => getElem?_linked hparent hplace

theorem insert_new (a : α) (c : Char) (rest : Text) :
    ((Node.new c).branch fun _ => .leaf).insert a c rest = Branch.leaf.insert a c rest := by
  cases rest <;> simp [Node.branch, Node.new, Branch.insert, Branch.single]

theorem regrown_enter {arena mid : Arena α} {link : Link} {c : Char} {id : Nat}
    {branch : Branch α} {places : Set Nat} (h : Holds arena.nodes (arena.follow link) branch places)
    (hlink : link.Outside arena places) (henter : arena.enter link c = (mid, id)) :
    mid.follow link = some id ∧ mid.size = arena.size ∧
      ∃ grown, arena.Regrown mid link grown places ∧
        ∀ a rest, grown.insert a c rest = branch.insert a c rest := by
  unfold enter at henter
  split at henter
  · rename_i found hfound
    cases henter
    exact ⟨hfound, rfl, branch, .refl h, fun _ _ => rfl⟩
  · rename_i hnone
    cases henter
    rw [hnone] at h
    cases h
    obtain ⟨hfollow, hgrown⟩ := Regrown.attach hlink c
    exact ⟨hfollow, rfl, _, hgrown, fun a => insert_new a c⟩

namespace Regrown

variable {arena mid next : Arena α} {link : Link} {id : Nat} {node : Node α} {branch : Branch α}
  {places : Set Nat} {below : Side → Branch α} {taken : Side → Set Nat}

/-- A node at the end of a link that holds another branch now, when nothing else changed. -/
theorem change (hlink : link.Outside arena places) (hmid : arena.Regrown mid link branch places)
    (hfollow : mid.follow link = some id) {grown : Branch α} {fresh : Set Nat}
    (hnew : Holds next.nodes (some id) grown fresh)
    (hfresh : ∀ place ∈ fresh, place ∈ places ∨ arena.nodes.size ≤ place)
    (hsize : mid.nodes.size ≤ next.nodes.size) (hroot : next.root = mid.root)
    (hkept : ∀ place < arena.nodes.size, place ∉ places → next.nodes[place]? = mid.nodes[place]?)
    (hempty : next.atEmpty = mid.atEmpty) : arena.Regrown next link grown places := by
  have hend : next.follow link = some id := by
    rw [← hfollow]
    cases link with
    | root => exact hroot
    | child parent side =>
      obtain ⟨hparent, hmem⟩ := hlink parent rfl
      rw [follow, follow, hkept parent hparent hmem]
  refine ⟨⟨fresh, hend ▸ hnew, hfresh⟩, hmid.size_le.trans hsize,
    fun hlink => hroot.trans (hmid.root hlink), ?_, ?_, hempty.trans hmid.atEmpty⟩
  · rintro parent side rfl
    obtain ⟨hparent, hmem⟩ := hlink parent rfl
    rw [hkept parent hparent hmem, hend, hmid.parent parent side rfl, hfollow]
  · exact fun place hplace hmem hparent =>
      (hkept place hplace hmem).trans (hmid.others place hplace hmem hparent)

theorem descend (hlink : link.Outside arena places) (hmid : arena.Regrown mid link branch places)
    (hfollow : mid.follow link = some id) (hfork : Fork mid.nodes id node below taken)
    (htaken : ∀ place ∈ spread id taken, place ∈ places ∨ arena.nodes.size ≤ place) {side : Side}
    {grown : Branch α} (hnext : mid.Regrown next (.child id side) grown (taken side)) :
    arena.Regrown next link (node.branch (update below side grown)) places := by
  obtain ⟨fresh, hgrown, hfresh⟩ := hnext.holds
  have hid : id < mid.nodes.size := (Array.getElem?_eq_some_iff.1 hfork.found).1
  have hbelow (other : Side) : ∀ place ∈ taken other, place < mid.nodes.size :=
    (hfork.sides other).lt_size
  -- The new places are those below the node on this side, or behind all that were there.
  have hfree : id ∉ fresh := fun hmem => (hfresh id hmem).elim (hfork.self side) hid.not_ge
  have hapart : ∀ other, other ≠ side → ∀ place ∈ fresh, place ∉ taken other := by
    intro other hother place hplace hmem
    rcases hfresh place hplace with hold | hnew
    · exact hfork.apart side other hother.symm place hold hmem
    · exact (hbelow other place hmem).not_ge hnew
  have hsame : ∀ other, other ≠ side → ∀ place ∈ taken other,
      next.nodes[place]? = mid.nodes[place]? := by
    intro other hother place hplace
    refine hnext.others place (hbelow other place hplace)
      (hfork.apart other side hother place hplace) fun heq => ?_
    exact hfork.self other (Option.some.inj heq ▸ hplace)
  have hnode : next.nodes[id]? = some (node.setChild (next.follow (.child id side)) side) := by
    rw [hnext.parent id side rfl, hfork.found, Option.map_some]
  have hreplaced := hfork.replace side hnode
    (fun other hother => by rw [Node.child_setChild, if_neg hother])
    (by rwa [Node.child_setChild, if_pos rfl]) hfree hapart hsame
  have hbranch : (node.setChild (next.follow (.child id side)) side).branch
      (update below side grown) = node.branch (update below side grown) := by
    simp [Node.branch]
  refine change hlink hmid hfollow (hbranch ▸ hreplaced.holds) ?_ hnext.size_le
    (hnext.root (by simp)) (fun place hplace hmem => ?_) hnext.atEmpty
  · rintro place (rfl | ⟨other, hplace⟩)
    · exact htaken place (.inl rfl)
    · by_cases hother : other = side
      · subst hother
        rw [update_self] at hplace
        rcases hfresh place hplace with hold | hnew
        · exact htaken place (.inr ⟨other, hold⟩)
        · exact .inr (hmid.size_le.trans hnew)
      · rw [update_of_ne hother] at hplace
        exact htaken place (.inr ⟨other, hplace⟩)
  · have houtside : place ∉ spread id taken := fun hspread =>
      (htaken place hspread).elim hmem hplace.not_ge
    refine hnext.others place (hplace.trans_le hmid.size_le)
      (fun hside => houtside (.inr ⟨side, hside⟩)) fun heq => ?_
    exact houtside (.inl (Option.some.inj heq).symm)

end Regrown

/-- A node that was entered, with all that a value put there or below it changes. -/
structure Entered (arena mid : Arena α) (link : Link) (id : Nat) (node : Node α)
    (below : Side → Branch α) (taken : Side → Set Nat) (places : Set Nat) : Prop where
  fork : Fork mid.nodes id node below taken
  size : mid.size = arena.size
  outside : ∀ side, (Link.child id side).Outside mid (taken side)
  descend : ∀ {next : Arena α} {side : Side} {grown : Branch α},
    mid.Regrown next (.child id side) grown (taken side) →
      arena.Regrown next link (node.branch (update below side grown)) places
  put : ∀ (f : List α → List α) (size : Nat),
    arena.Regrown { mid.mapValues id f with size := size } link
      ((node.mapValues f).branch below) places

theorem exists_entered {arena mid : Arena α} {link : Link} {c : Char} {id : Nat}
    {branch : Branch α} {places : Set Nat} (h : Holds arena.nodes (arena.follow link) branch places)
    (hlink : link.Outside arena places) (henter : arena.enter link c = (mid, id)) :
    ∃ node below taken, arena.Entered mid link id node below taken places ∧
      ∀ a rest, (node.branch below).insert a c rest = branch.insert a c rest := by
  obtain ⟨hfollow, hsize, grown, hgrown, hinsert⟩ := regrown_enter h hlink henter
  obtain ⟨_, hholds, htaken⟩ := hgrown.holds
  rw [hfollow] at hholds
  obtain ⟨node, below, taken, hfork, rfl, rfl⟩ := hholds.exists_fork
  have hid : id < mid.nodes.size := (Array.getElem?_eq_some_iff.1 hfork.found).1
  refine ⟨node, below, taken, ⟨hfork, hsize, ?_, fun hnext => ?_, fun f size => ?_⟩, hinsert⟩
  · rintro side parent ⟨⟩
    exact ⟨hid, hfork.self side⟩
  · exact hgrown.descend hlink hfollow hfork htaken hnext
  · have hne (place : Nat) (hne : place ≠ id) :
        (mid.mapValues id f).nodes[place]? = mid.nodes[place]? := getElem?_mapValues_of_ne hne f
    have hput := hfork.mapValues (getElem?_mapValues_self hfork.found f) hne
    refine hgrown.change hlink hfollow hput.holds htaken (by simp [mapValues]) rfl
      (fun place hplace hmem => hne place fun heq => ?_) rfl
    exact (htaken id (.inl rfl)).elim (heq ▸ hmem) (heq ▸ hplace).not_ge

theorem Entered.sides {arena mid : Arena α} {link : Link} {id : Nat} {node : Node α}
    {below : Side → Branch α} {taken : Side → Set Nat} {places : Set Nat}
    (h : arena.Entered mid link id node below taken places) (side : Side) :
    Holds mid.nodes (mid.follow (.child id side)) (below side) (taken side) := by
  rw [follow, h.fork.found, Option.bind_some]
  exact h.fork.sides side

theorem insertFrom_of_enter {arena mid : Arena α} {link : Link} {c : Char} {id : Nat}
    {node : Node α} (henter : arena.enter link c = (mid, id)) (hnode : mid.nodes[id]? = some node)
    (a : α) (rest : Text) : arena.insertFrom a link c rest = match advance c rest node.char with
      | none => { mid.mapValues id (· ++ [a]) with size := mid.size + 1 }
      | some (side, d, rest) => mid.insertFrom a (.child id side) d rest := by
  rw [insertFrom]
  split
  rename_i entered place hentered
  cases henter.symm.trans hentered
  split
  · rename_i hnone
    cases hnode.symm.trans hnone
  · rename_i found hfound
    obtain rfl : node = found := Option.some.inj (hnode.symm.trans hfound)
    by_cases hless : c.toNat < node.char.toNat
    · simp [advance, hless]
    · by_cases hgreater : node.char.toNat < c.toNat
      · simp [advance, hless, hgreater]
      · cases rest <;> simp [advance, hless, hgreater]

/-- Putting a value from a link on changes the branch there and counts the value. -/
theorem regrown_insertFrom (a : α) {arena : Arena α} {link : Link} {c : Char} {rest : Text}
    {branch : Branch α} {places : Set Nat}
    (h : Holds arena.nodes (arena.follow link) branch places) (hlink : link.Outside arena places) :
    arena.Regrown (arena.insertFrom a link c rest) link (branch.insert a c rest) places ∧
      (arena.insertFrom a link c rest).size = arena.size + 1 := by
  obtain ⟨⟨mid, id⟩, henter⟩ : ∃ entered, arena.enter link c = entered := ⟨_, rfl⟩
  obtain ⟨node, below, taken, hentered, hinsert⟩ := exists_entered h hlink henter
  have hnode := hentered.fork.found
  rw [insertFrom_of_enter henter hnode, ← hinsert, insert_branch]
  cases hadvance : advance c rest node.char with
  | none => exact ⟨hentered.put _ _, by rw [hentered.size]⟩
  | some next =>
    obtain ⟨side, d, rest'⟩ := next
    obtain ⟨hnext, hsize⟩ : mid.Regrown (mid.insertFrom a (.child id side) d rest')
        (.child id side) ((below side).insert a d rest') (taken side) ∧
          (mid.insertFrom a (.child id side) d rest').size = mid.size + 1 :=
      regrown_insertFrom a (hentered.sides side) (hentered.outside side)
    exact ⟨hentered.descend hnext, by rw [hsize, hentered.size]⟩
termination_by (rest.length, arena.remaining (arena.follow link))
decreasing_by
  rcases advance_shrinks hadvance with hshorter | ⟨rfl, hne⟩
  · exact .left _ _ hshorter
  · exact .right _ (remaining_enter_lt henter hnode hne side)

theorem collect_expand {arena : Arena α} {id : Nat} {node : Node α}
    (h : arena.nodes[id]? = some node) (stack : List Frame) (out : List α) :
    arena.collect (.expand id :: stack) out =
      arena.collect (expandAll (node.child .less) ++ .emit id :: expandAll (node.child .same) ++
        expandAll (node.child .greater) ++ stack) out := by
  rw [collect]
  split
  · rename_i hnone
    cases h.symm.trans hnone
  · rename_i found hfound
    obtain rfl : node = found := Option.some.inj (h.symm.trans hfound)
    rfl

/-- A walk shows what stands below a link, in the order of the branch, and then goes on. -/
theorem Holds.collect_expandAll {arena : Arena α} {current : Option Nat} {branch : Branch α}
    {places : Set Nat} (h : Holds arena.nodes current branch places) (stack : List Frame)
    (out : List α) :
    arena.collect (expandAll current ++ stack) out = arena.collect stack (out ++ branch.toList) := by
  induction h generalizing stack out with
  | leaf => simp [expandAll, Branch.toList]
  | @node id node below taken hnode _ _ _ ih =>
    have hvalues : arena.valuesAt id = node.values := by simp [valuesAt, hnode]
    have hemit (stack : List Frame) (out : List α) :
        arena.collect (.emit id :: stack) out = arena.collect stack (out ++ node.values) := by
      rw [collect, hvalues]
    calc arena.collect (.expand id :: stack) out
      _ = arena.collect (expandAll (node.child .less) ++ (.emit id ::
            (expandAll (node.child .same) ++ (expandAll (node.child .greater) ++ stack)))) out := by
          rw [collect_expand hnode]
          simp only [List.append_assoc, List.cons_append]
      _ = arena.collect stack ((((out ++ (below .less).toList) ++ node.values) ++
            (below .same).toList) ++ (below .greater).toList) := by
          rw [ih .less, hemit, ih .same, ih .greater]
      _ = arena.collect stack (out ++ (node.branch below).toList) := by
          simp only [Node.branch, Branch.toList, List.append_assoc]

theorem Holds.collect_eq {arena : Arena α} {current : Option Nat} {branch : Branch α}
    {places : Set Nat} (h : Holds arena.nodes current branch places) (out : List α) :
    arena.collect (expandAll current) out = out ++ branch.toList := by
  have hstack := h.collect_expandAll [] out
  rwa [List.append_nil, collect] at hstack

end Arena

/-- A change of a tree or an arena; what is to be removed is told by a predicate with a state. -/
inductive Edit (α : Type) where
  | insert (key : Text) (a : α)
  | removeWhere {σ : Type} (key : Text) (drop : σ → α → Bool × σ) (s : σ)
  | clear

variable {α : Type}

def Arena.edit (arena : Arena α) : Edit α → Arena α
  | .insert key a => arena.insert key a
  | .removeWhere key drop s => (arena.removeWhere key drop s).1
  | .clear => .empty

def SearchTree.edit (tree : SearchTree α) : Edit α → SearchTree α
  | .insert key a => tree.insert key a
  | .removeWhere key drop s => tree.shrink key fun values => (Arena.retain drop s values).1
  | .clear => .empty

namespace Arena

/-- The arena stands for the tree. -/
structure Represents (arena : Arena α) (tree : SearchTree α) : Prop where
  holds : ∃ places, Holds arena.nodes arena.root tree.root places
  atEmpty : arena.atEmpty = tree.atEmpty
  size : arena.size = tree.size

namespace Represents

variable {arena : Arena α} {tree : SearchTree α}

theorem empty : (Arena.empty : Arena α).Represents .empty :=
  ⟨⟨∅, .leaf⟩, rfl, rfl⟩

theorem get_eq (h : arena.Represents tree) (key : Text) : arena.get key = tree.get key := by
  obtain ⟨places, hholds⟩ := h.holds
  cases key with
  | nil => exact h.atEmpty
  | cons c rest =>
    rw [Arena.get, SearchTree.get]
    cases hholds.finds c rest with
    | absent hplace hfind => rw [hplace, hfind, Option.elim_none]
    | present hplace hnode _ hfind => simp [hplace, hfind, valuesAt, hnode]

theorem startingWith_eq (h : arena.Represents tree) (start : Text) :
    arena.startingWith start = tree.startingWith start := by
  obtain ⟨places, hholds⟩ := h.holds
  cases start with
  | nil => rw [Arena.startingWith, hholds.collect_eq, h.atEmpty, SearchTree.startingWith]
  | cons c rest =>
    rw [Arena.startingWith, SearchTree.startingWith]
    cases hholds.finds c rest with
    | absent hplace hfind => simp [hplace, hfind]
    | present hplace hnode _ hfind hlonger => simp [hplace, hnode, hfind, hlonger.collect_eq]

theorem insert (h : arena.Represents tree) (key : Text) (a : α) :
    (arena.insert key a).Represents (tree.insert key a) := by
  obtain ⟨places, hholds⟩ := h.holds
  cases key with
  | nil =>
    exact ⟨⟨places, hholds⟩, congrArg (· ++ [a]) h.atEmpty, congrArg (· + 1) h.size⟩
  | cons c rest =>
    have hroot : Link.root.Outside arena places := fun _ hparent => by cases hparent
    obtain ⟨hgrown, hsize⟩ : arena.Regrown (arena.insertFrom a .root c rest) .root
        (tree.root.insert a c rest) places ∧
          (arena.insertFrom a .root c rest).size = arena.size + 1 :=
      regrown_insertFrom a hholds hroot
    obtain ⟨taken, htaken, -⟩ := hgrown.holds
    exact ⟨⟨taken, htaken⟩, hgrown.atEmpty.trans h.atEmpty, hsize.trans (congrArg (· + 1) h.size)⟩

/-- Removal asks the predicate about the values of the key in their order, each of them once. -/
theorem removeWhere (h : arena.Represents tree) {σ : Type} (key : Text)
    (drop : σ → α → Bool × σ) (s : σ) :
    (arena.removeWhere key drop s).1.Represents
        (tree.shrink key fun values => (retain drop s values).1) ∧
      (arena.removeWhere key drop s).2 =
        ((tree.get key).length - (retain drop s (tree.get key)).1.length,
          (retain drop s (tree.get key)).2) := by
  obtain ⟨places, hholds⟩ := h.holds
  cases key with
  | nil =>
    rw [Arena.removeWhere, h.atEmpty, h.size]
    exact ⟨⟨⟨places, hholds⟩, rfl, rfl⟩, rfl⟩
  | cons c rest =>
    have hget := h.get_eq (c :: rest)
    rw [Arena.removeWhere]
    cases hholds.finds c rest with
    | absent hplace hfind hmodify =>
      have hnone : tree.get (c :: rest) = [] := by rw [SearchTree.get, hfind]
      rw [hplace]
      refine ⟨⟨⟨places, ?_⟩, h.atEmpty, ?_⟩, ?_⟩
      · rw [SearchTree.shrink, hmodify]
        exact hholds
      · simp [SearchTree.shrink, hnone, h.size, retain]
      · simp [hnone, retain]
    | @present id node longer taken hplace hnode _ hfind _ hmodify =>
      have hvalues : tree.get (c :: rest) = arena.valuesAt id := by
        rw [← hget, Arena.get, hplace, Option.elim_some]
      have hnodes : (arena.mapValues id fun _ => (retain drop s (arena.valuesAt id)).1).nodes =
          (arena.mapValues id fun values => (retain drop s values).1).nodes :=
        nodes_mapValues_congr hnode (by simp [valuesAt, hnode])
      rw [hplace, hvalues]
      refine ⟨⟨⟨places, ?_⟩, h.atEmpty, ?_⟩, rfl⟩
      · exact (congrArg (Holds · _ _ _) hnodes).mpr (hmodify _)
      · rw [SearchTree.shrink, hvalues, ← h.size]

theorem edit (h : arena.Represents tree) (edit : Edit α) :
    (arena.edit edit).Represents (tree.edit edit) := by
  cases edit with
  | insert key a => exact h.insert key a
  | removeWhere key drop s => exact (h.removeWhere key drop s).1
  | clear => exact empty

theorem foldl (h : arena.Represents tree) (edits : List (Edit α)) :
    (edits.foldl Arena.edit arena).Represents (edits.foldl SearchTree.edit tree) := by
  induction edits generalizing arena tree with
  | nil => exact h
  | cons edit edits ih => exact ih (h.edit edit)

end Represents

theorem edits_answer_alike (edits : List (Edit α)) :
    let arena := edits.foldl Arena.edit .empty
    let tree := edits.foldl SearchTree.edit .empty
    (∀ key, arena.get key = tree.get key) ∧
    (∀ start, arena.startingWith start = tree.startingWith start) ∧
    arena.size = tree.size ∧ arena.isEmpty = tree.isEmpty ∧
    ∀ {σ : Type} (key : Text) (drop : σ → α → Bool × σ) (s : σ),
      (arena.removeWhere key drop s).2 =
        ((tree.get key).length - (retain drop s (tree.get key)).1.length,
          (retain drop s (tree.get key)).2) := by
  intro arena tree
  have h : arena.Represents tree := Represents.empty.foldl edits
  exact ⟨h.get_eq, h.startingWith_eq, h.size, by rw [isEmpty, h.size]; rfl,
    fun key drop s => (h.removeWhere key drop s).2⟩

theorem retain_pure (p : α → Bool) (values : List α) :
    (retain (fun (_ : Unit) a => (p a, ())) () values).1 = values.filter (!p ·) := by
  induction values with
  | nil => rfl
  | cons a values ih => cases hp : p a <;> simp [retain, hp, ih]

/-- A predicate that drops one value at most and remembers whether it did. -/
def once (p : α → Bool) (dropped : Bool) (a : α) : Bool × Bool :=
  if !dropped && p a then (true, true) else (false, dropped)

theorem retain_once (p : α → Bool) (values : List α) :
    retain (once p) false values = (values.eraseP p, values.any p) := by
  have hrest (values : List α) : retain (once p) true values = (values, true) := by
    induction values with
    | nil => rfl
    | cons a values ih => simp [retain, once, ih]
  induction values with
  | nil => rfl
  | cons a values ih => cases hp : p a <;> simp [retain, once, hp, ih, hrest]

end Arena

/-- Removing the values that satisfy a condition is the edit with a predicate that needs no
state. -/
theorem SearchTree.edit_removeWhere (tree : SearchTree α) (key : Text) (p : α → Bool) :
    tree.edit (.removeWhere key (fun (_ : Unit) a => (p a, ())) ()) =
      (tree.removeWhere key p).1 := by
  rw [edit, removeWhere]
  exact congrArg (tree.shrink key) (funext fun values => Arena.retain_pure p values)

/-- A container removes one copy of an item by the edit whose predicate remembers that. -/
theorem Container.tree_remove [Keyed α] [BEq α] (container : Container α) (item : α) :
    (container.remove item).tree = container.tree.edit
      (.removeWhere (normalize (Keyed.key item)) (Arena.once (· == item)) false) := by
  rw [remove, SearchTree.edit]
  refine congrArg (container.tree.shrink _) (funext fun values => ?_)
  rw [Arena.retain_once]

end SuiteIndex
