import SuiteIndex.Index.SearchTree
import SuiteIndex.Text.Lowercase

/-! # Containers of named items

Items are found by their name or the start of it, whatever the case. Equal items may
be held several times, and removing one takes the copy that was added first.
-/

namespace SuiteIndex

/-- Items that are looked up by a name. -/
class Keyed (α : Type) where
  key : α → Text

structure Container (α : Type) where
  tree : SearchTree α

namespace Container

variable {α : Type} [Keyed α]

def empty : Container α :=
  ⟨.empty⟩

instance : EmptyCollection (Container α) := ⟨empty⟩

def normalize (key : Text) : Text :=
  Text.lower key

def add (container : Container α) (item : α) : Container α :=
  ⟨container.tree.insert (normalize (Keyed.key item)) item⟩

def exact (container : Container α) (key : Text) : List α :=
  container.tree.get (normalize key)

/-- The items whose name starts like this, in the order of their names. -/
def startingWith (container : Container α) (start : Text) : List α :=
  container.tree.startingWith (normalize start)

def items (container : Container α) : List α :=
  container.tree.toList

def size (container : Container α) : Nat :=
  container.tree.size

def isEmpty (container : Container α) : Bool :=
  container.tree.isEmpty

def holds [BEq α] (container : Container α) (item : α) : Bool :=
  (container.exact (Keyed.key item)).any (· == item)

/-- Remove one item equal to this one, if there is any. -/
def remove [BEq α] (container : Container α) (item : α) : Container α :=
  ⟨container.tree.shrink (normalize (Keyed.key item)) (·.eraseP (· == item))⟩

def merge (container other : Container α) : Container α :=
  other.items.foldl add container

/-- Remove every item of another container, one copy for each. -/
def retract [BEq α] (container other : Container α) : Container α :=
  other.items.foldl remove container

end Container

end SuiteIndex
