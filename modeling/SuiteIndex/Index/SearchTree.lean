import SuiteIndex.Text

/-! # Ternary search trees

A tree holds lists of values under texts. Each node compares one character of the
key: smaller characters lie to one side, greater ones to the other, and in the middle
the rest of the key goes on. Values come out in the order of their keys, and values
of one key in the order they were put in. Removing values leaves the nodes in place.
-/

namespace SuiteIndex

/-- The nodes under non-empty keys. -/
inductive Branch (α : Type) where
  | leaf
  | node (char : Char) (values : List α) (less same greater : Branch α)

namespace Branch

variable {α : Type}

/-- A branch with one value under the key `c :: rest`. -/
def single (a : α) (c : Char) : Text → Branch α
  | [] => node c [a] leaf leaf leaf
  | d :: rest => node c [] leaf (single a d rest) leaf

/-- Put a value behind those under the key `c :: rest`. -/
def insert (a : α) (c : Char) (rest : Text) : Branch α → Branch α
  | leaf => single a c rest
  | node char values less same greater =>
    if c.toNat < char.toNat then node char values (insert a c rest less) same greater
    else if char.toNat < c.toNat then node char values less same (insert a c rest greater)
    else match rest with
      | [] => node char (values ++ [a]) less same greater
      | d :: rest => node char values less (insert a d rest same) greater

/-- The values under the key `c :: rest`, and the branch of the longer keys that
start with it. -/
def find? (c : Char) (rest : Text) : Branch α → Option (List α × Branch α)
  | leaf => none
  | node char values less same greater =>
    if c.toNat < char.toNat then find? c rest less
    else if char.toNat < c.toNat then find? c rest greater
    else match rest with
      | [] => some (values, same)
      | d :: rest => find? d rest same

/-- Change the values under the key `c :: rest`, if it has a node. -/
def modify (f : List α → List α) (c : Char) (rest : Text) : Branch α → Branch α
  | leaf => leaf
  | node char values less same greater =>
    if c.toNat < char.toNat then node char values (modify f c rest less) same greater
    else if char.toNat < c.toNat then node char values less same (modify f c rest greater)
    else match rest with
      | [] => node char (f values) less same greater
      | d :: rest => node char values less (modify f d rest same) greater

def toList : Branch α → List α
  | leaf => []
  | node _ values less same greater =>
    less.toList ++ values ++ same.toList ++ greater.toList

end Branch

/-- A tree with the values under the empty key beside it, and the number of all
values. -/
structure SearchTree (α : Type) where
  root : Branch α
  atEmpty : List α
  size : Nat

namespace SearchTree

variable {α : Type}

def empty : SearchTree α :=
  ⟨.leaf, [], 0⟩

def isEmpty (tree : SearchTree α) : Bool :=
  tree.size = 0

def insert (tree : SearchTree α) (key : Text) (a : α) : SearchTree α :=
  match key with
  | [] => { tree with atEmpty := tree.atEmpty ++ [a], size := tree.size + 1 }
  | c :: rest => { tree with root := tree.root.insert a c rest, size := tree.size + 1 }

def get (tree : SearchTree α) : Text → List α
  | [] => tree.atEmpty
  | c :: rest => match tree.root.find? c rest with
    | some (values, _) => values
    | none => []

/-- The values under all keys that start with this text, in the order of the keys. -/
def startingWith (tree : SearchTree α) : Text → List α
  | [] => tree.atEmpty ++ tree.root.toList
  | c :: rest => match tree.root.find? c rest with
    | some (values, longer) => values ++ longer.toList
    | none => []

def toList (tree : SearchTree α) : List α :=
  tree.startingWith []

/-- Replace the values under a key by some of them. -/
def shrink (tree : SearchTree α) (key : Text) (f : List α → List α) : SearchTree α :=
  let dropped := (tree.get key).length - (f (tree.get key)).length
  match key with
  | [] => { tree with atEmpty := f tree.atEmpty, size := tree.size - dropped }
  | c :: rest => { tree with root := tree.root.modify f c rest, size := tree.size - dropped }

/-- Remove the values under a key that satisfy `p`, and tell how many these were. -/
def removeWhere (tree : SearchTree α) (key : Text) (p : α → Bool) : SearchTree α × Nat :=
  (tree.shrink key (·.filter (!p ·)), (tree.get key).countP p)

end SearchTree

end SuiteIndex
