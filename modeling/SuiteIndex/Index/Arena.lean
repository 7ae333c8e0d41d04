import SuiteIndex.Text

/-! # Search trees in an arena

The nodes of a ternary search tree stand one behind the other and link to each other by their
places. A new node comes last and is linked from one of the others, so all links lead ahead and
every walk along them ends. Removing values leaves the nodes in place.
-/

namespace SuiteIndex

namespace Arena

inductive Side where
  | less
  | same
  | greater
deriving DecidableEq

structure Node (α : Type) where
  char : Char
  less : Option Nat
  same : Option Nat
  greater : Option Nat
  values : List α

namespace Node

variable {α : Type}

def new (c : Char) : Node α :=
  ⟨c, none, none, none, []⟩

def child (node : Node α) : Side → Option Nat
  | .less => node.less
  | .same => node.same
  | .greater => node.greater

def setChild (node : Node α) (child : Option Nat) : Side → Node α
  | .less => { node with less := child }
  | .same => { node with same := child }
  | .greater => { node with greater := child }

def mapValues (f : List α → List α) (node : Node α) : Node α :=
  { node with values := f node.values }

theorem child_setChild (node : Node α) (child : Option Nat) (side other : Side) :
    (node.setChild child side).child other = if other = side then child else node.child other := by
  cases side <;> cases other <;> rfl

@[simp] theorem setChild_child (node : Node α) (side : Side) :
    node.setChild (node.child side) side = node := by
  cases side <;> rfl

@[simp] theorem char_setChild (node : Node α) (child : Option Nat) (side : Side) :
    (node.setChild child side).char = node.char := by
  cases side <;> rfl

@[simp] theorem values_setChild (node : Node α) (child : Option Nat) (side : Side) :
    (node.setChild child side).values = node.values := by
  cases side <;> rfl

@[simp] theorem child_mapValues (f : List α → List α) (node : Node α) (side : Side) :
    (node.mapValues f).child side = node.child side := by
  cases side <;> rfl

end Node

/-- A link, which may be followed or set. -/
inductive Link where
  | root
  | child (parent : Nat) (side : Side)

def Link.parent? : Link → Option Nat
  | root => none
  | child parent _ => some parent

/-- What is left to do on a walk: to visit a node with all below it, or to show its values. -/
inductive Frame where
  | expand (id : Nat)
  | emit (id : Nat)

def Ahead {α : Type} (nodes : Array (Node α)) : Prop :=
  ∀ id node, nodes[id]? = some node → ∀ side child, node.child side = some child →
    id < child ∧ child < nodes.size

end Arena

structure Arena (α : Type) where
  nodes : Array (Arena.Node α)
  root : Option Nat
  atEmpty : List α
  /-- The number of all values. -/
  size : Nat
  ahead : Arena.Ahead nodes

namespace Arena

variable {α : Type}

/-- The nodes after a new one was put behind them and linked. -/
def linked (nodes : Array (Node α)) (c : Char) : Link → Array (Node α)
  | .root => nodes.push (.new c)
  | .child parent side =>
    (nodes.modify parent (·.setChild (some nodes.size) side)).push (.new c)

theorem size_linked (nodes : Array (Node α)) (c : Char) (link : Link) :
    (linked nodes c link).size = nodes.size + 1 := by
  cases link <;> simp [linked]

theorem getElem?_linked_size (nodes : Array (Node α)) (c : Char) (link : Link) :
    (linked nodes c link)[nodes.size]? = some (.new c) := by
  have hlast (earlier : Array (Node α)) (h : earlier.size = nodes.size) :
      (earlier.push (.new c))[nodes.size]? = some (.new c) := by
    rw [← h]
    exact Array.getElem?_push_size
  cases link with
  | root => exact hlast nodes rfl
  | child parent side => exact hlast _ Array.size_modify

theorem getElem?_linked {nodes : Array (Node α)} {c : Char} {link : Link} {id : Nat}
    (h : link.parent? ≠ some id) (hid : id < nodes.size) :
    (linked nodes c link)[id]? = nodes[id]? := by
  cases link with
  | root => simp [linked, Array.getElem?_push, Nat.ne_of_lt hid]
  | child parent side =>
    have hne : parent ≠ id := fun heq => h (congrArg some heq)
    simp [linked, Array.getElem?_push, Nat.ne_of_lt hid, Array.getElem?_modify, hne]

theorem getElem?_linked_parent {nodes : Array (Node α)} {c : Char} {parent : Nat} {side : Side}
    (h : parent < nodes.size) : (linked nodes c (.child parent side))[parent]? =
      nodes[parent]?.map (·.setChild (some nodes.size) side) := by
  simp [linked, Array.getElem?_push, Nat.ne_of_lt h, Array.getElem?_modify]

theorem Ahead.empty : Ahead (#[] : Array (Node α)) := by
  intro id node h
  simp at h

theorem Ahead.modify {nodes : Array (Node α)} (h : Ahead nodes) (id : Nat)
    (f : List α → List α) : Ahead (nodes.modify id (·.mapValues f)) := by
  intro place node hnode side child hchild
  rw [Array.size_modify]
  rw [Array.getElem?_modify] at hnode
  split at hnode
  · obtain ⟨old, hold, rfl⟩ := Option.map_eq_some_iff.1 hnode
    exact h place old hold side child (by simpa using hchild)
  · exact h place node hnode side child hchild

theorem Ahead.linked {nodes : Array (Node α)} (h : Ahead nodes) (c : Char) (link : Link) :
    Ahead (linked nodes c link) := by
  intro id node hnode side child hchild
  rw [size_linked]
  have hid : id < nodes.size + 1 :=
    size_linked nodes c link ▸ (Array.getElem?_eq_some_iff.1 hnode).1
  by_cases hlast : id = nodes.size
  · rw [hlast, getElem?_linked_size] at hnode
    cases hnode
    cases side <;> cases hchild
  · have hlt : id < nodes.size := by omega
    by_cases hparent : link.parent? = some id
    · cases link with
      | root => cases hparent
      | child parent side' =>
        cases hparent
        rw [getElem?_linked_parent hlt] at hnode
        obtain ⟨old, hold, rfl⟩ := Option.map_eq_some_iff.1 hnode
        rw [Node.child_setChild] at hchild
        split at hchild
        · cases hchild
          omega
        · have hold := h id old hold side child hchild
          omega
    · rw [getElem?_linked hparent hlt] at hnode
      have hold := h id node hnode side child hchild
      omega

def empty : Arena α :=
  ⟨#[], none, [], 0, .empty⟩

def isEmpty (arena : Arena α) : Bool :=
  arena.size = 0

def follow (arena : Arena α) : Link → Option Nat
  | .root => arena.root
  | .child parent side => arena.nodes[parent]?.bind (·.child side)

/-- Make a node for a character at the end of a link. -/
def attach (arena : Arena α) (link : Link) (c : Char) : Arena α where
  nodes := linked arena.nodes c link
  root := match link with
    | .root => some arena.nodes.size
    | .child _ _ => arena.root
  atEmpty := arena.atEmpty
  size := arena.size
  ahead := arena.ahead.linked c link

/-- The node at the end of a link, which is made if there is none. -/
def enter (arena : Arena α) (link : Link) (c : Char) : Arena α × Nat :=
  match arena.follow link with
  | some id => (arena, id)
  | none => (arena.attach link c, arena.nodes.size)

def mapValues (arena : Arena α) (id : Nat) (f : List α → List α) : Arena α where
  nodes := arena.nodes.modify id (·.mapValues f)
  root := arena.root
  atEmpty := arena.atEmpty
  size := arena.size
  ahead := arena.ahead.modify id f

/-- How far it is from a node to the end of the arena. -/
def remaining (arena : Arena α) : Option Nat → Nat
  | some id => arena.nodes.size - id
  | none => 0

theorem remaining_child_lt {arena : Arena α} {id : Nat} {node : Node α}
    (h : arena.nodes[id]? = some node) (side : Side) :
    arena.remaining (node.child side) < arena.remaining (some id) := by
  have hid : id < arena.nodes.size := (Array.getElem?_eq_some_iff.1 h).1
  cases hchild : node.child side with
  | none => exact Nat.sub_pos_of_lt hid
  | some child =>
    obtain ⟨hlt, -⟩ := arena.ahead id node h side child hchild
    simp only [remaining]
    omega

/-- A new node has the character it was made for, so no other way leads on from it. -/
theorem remaining_enter_lt {arena next : Arena α} {link : Link} {c : Char} {id : Nat}
    {node : Node α} (h : arena.enter link c = (next, id)) (hnode : next.nodes[id]? = some node)
    (hne : c.toNat ≠ node.char.toNat) (side : Side) :
    next.remaining (next.follow (.child id side)) < arena.remaining (arena.follow link) := by
  unfold enter at h
  split at h
  · rename_i found hfound
    cases h
    rw [hfound, follow, hnode]
    exact remaining_child_lt hnode side
  · cases h
    have hnew := (getElem?_linked_size arena.nodes c link).symm.trans hnode
    cases hnew
    exact absurd rfl hne

/-- Put a value under the key `c :: rest` from a link on. -/
def insertFrom (a : α) (arena : Arena α) (link : Link) (c : Char) (rest : Text) : Arena α :=
  match _ : arena.enter link c with
  | (next, id) =>
    match _ : next.nodes[id]? with
    | none => next
    | some node =>
      if _ : c.toNat < node.char.toNat then insertFrom a next (.child id .less) c rest
      else if _ : node.char.toNat < c.toNat then insertFrom a next (.child id .greater) c rest
      else match rest with
        | [] => { next.mapValues id (· ++ [a]) with size := next.size + 1 }
        | d :: rest => insertFrom a next (.child id .same) d rest
termination_by (rest.length, arena.remaining (arena.follow link))
decreasing_by
  · exact .right _ (remaining_enter_lt (by assumption) (by assumption) (by omega) .less)
  · exact .right _ (remaining_enter_lt (by assumption) (by assumption) (by omega) .greater)
  · exact .left _ _ (Nat.lt_succ_self _)

def insert (arena : Arena α) (key : Text) (a : α) : Arena α :=
  match key with
  | [] => { arena with atEmpty := arena.atEmpty ++ [a], size := arena.size + 1 }
  | c :: rest => arena.insertFrom a .root c rest

/-- The place of the node for the last character of the key `c :: rest`. -/
def findFrom (arena : Arena α) (c : Char) (rest : Text) (current : Option Nat) : Option Nat :=
  match current with
  | none => none
  | some id =>
    match _ : arena.nodes[id]? with
    | none => none
    | some node =>
      if c.toNat < node.char.toNat then arena.findFrom c rest (node.child .less)
      else if node.char.toNat < c.toNat then arena.findFrom c rest (node.child .greater)
      else match rest with
        | [] => some id
        | d :: rest => arena.findFrom d rest (node.child .same)
termination_by arena.remaining current
decreasing_by all_goals exact remaining_child_lt (by assumption) _

def valuesAt (arena : Arena α) (id : Nat) : List α :=
  arena.nodes[id]?.elim [] Node.values

def get (arena : Arena α) : Text → List α
  | [] => arena.atEmpty
  | c :: rest => (arena.findFrom c rest arena.root).elim [] arena.valuesAt

/-- What a predicate with a state leaves of a list, and its state after that. -/
def retain {σ : Type} (drop : σ → α → Bool × σ) (s : σ) : List α → List α × σ
  | [] => ([], s)
  | a :: rest =>
    let (dropped, s) := drop s a
    let (kept, s) := retain drop s rest
    (if dropped then kept else a :: kept, s)

/-- Remove the values under a key that a predicate drops. This gives also the number of removed
values and the last state of the predicate. -/
def removeWhere {σ : Type} (arena : Arena α) (key : Text) (drop : σ → α → Bool × σ) (s : σ) :
    Arena α × Nat × σ :=
  match key with
  | [] =>
    let (kept, s) := retain drop s arena.atEmpty
    let removed := arena.atEmpty.length - kept.length
    ({ arena with atEmpty := kept, size := arena.size - removed }, removed, s)
  | c :: rest =>
    match arena.findFrom c rest arena.root with
    | none => (arena, 0, s)
    | some id =>
      let (kept, s) := retain drop s (arena.valuesAt id)
      let removed := (arena.valuesAt id).length - kept.length
      ({ arena.mapValues id fun _ => kept with size := arena.size - removed }, removed, s)

/-- A bound for the steps of a walk through so many nodes. -/
def steps : Nat → Nat
  | 0 => 2
  | n + 1 => 4 * steps n

theorem two_le_steps (n : Nat) : 2 ≤ steps n := by
  induction n with
  | zero => exact Nat.le_refl 2
  | succ n ih => exact Nat.le_trans ih (Nat.le_mul_of_pos_left _ (by decide))

theorem steps_le_steps {m n : Nat} (h : m ≤ n) : steps m ≤ steps n := by
  induction h with
  | refl => exact Nat.le_refl _
  | step _ ih => exact Nat.le_trans ih (Nat.le_mul_of_pos_left _ (by decide))

def Frame.weight (size : Nat) : Frame → Nat
  | expand id => steps (size - id)
  | emit _ => 1

def work (size : Nat) : List Frame → Nat
  | [] => 0
  | frame :: stack => frame.weight size + work size stack

theorem work_append (size : Nat) (first second : List Frame) :
    work size (first ++ second) = work size first + work size second := by
  induction first with
  | nil => exact (Nat.zero_add _).symm
  | cons frame first ih => rw [List.cons_append, work, work, ih, Nat.add_assoc]

def expandAll (child : Option Nat) : List Frame :=
  child.toList.map .expand

theorem work_expandAll_le {arena : Arena α} {id : Nat} {node : Node α}
    (h : arena.nodes[id]? = some node) (side : Side) :
    work arena.nodes.size (expandAll (node.child side)) ≤ steps (arena.nodes.size - id - 1) := by
  cases hchild : node.child side with
  | none => exact Nat.zero_le _
  | some child =>
    obtain ⟨hlt, -⟩ := arena.ahead id node h side child hchild
    have hle : arena.nodes.size - child ≤ arena.nodes.size - id - 1 := by omega
    exact steps_le_steps hle

def collect (arena : Arena α) (stack : List Frame) (out : List α) : List α :=
  match stack with
  | [] => out
  | .emit id :: stack => arena.collect stack (out ++ arena.valuesAt id)
  | .expand id :: stack =>
    match _ : arena.nodes[id]? with
    | none => arena.collect stack out
    | some node =>
      arena.collect (expandAll (node.child .less) ++ .emit id :: expandAll (node.child .same) ++
        expandAll (node.child .greater) ++ stack) out
termination_by work arena.nodes.size stack
decreasing_by
  · simp [work, Frame.weight]
  · have hsteps := two_le_steps (arena.nodes.size - id)
    simp only [work, Frame.weight]
    omega
  · have hnode : arena.nodes[id]? = some node := by assumption
    have hid : id < arena.nodes.size := (Array.getElem?_eq_some_iff.1 hnode).1
    have hless := work_expandAll_le hnode .less
    have hsame := work_expandAll_le hnode .same
    have hgreater := work_expandAll_le hnode .greater
    have hsteps : steps (arena.nodes.size - id) = 4 * steps (arena.nodes.size - id - 1) := by
      rw [← steps, Nat.succ_eq_add_one, Nat.sub_add_cancel (by omega)]
    have hpos := two_le_steps (arena.nodes.size - id - 1)
    simp only [work_append, work, Frame.weight, hsteps]
    omega

/-- The values under all keys that start with this text, in the order of the keys. -/
def startingWith (arena : Arena α) : Text → List α
  | [] => arena.collect (expandAll arena.root) arena.atEmpty
  | c :: rest =>
    match (arena.findFrom c rest arena.root).bind (arena.nodes[·]?) with
    | some node => arena.collect (expandAll node.same) node.values
    | none => []

end Arena

end SuiteIndex
