import SuiteIndex.Disk.Entry

/-! # Walks through folders

A walk visits what lies below a root: each entry before what it holds, and the entries of a
folder in the order of their names. An entry that is not to be kept is passed over together with
all that it holds, links are not followed, and a folder that may not be opened gives a fault
behind its own visit.
-/

namespace SuiteIndex

/-- An entry on a walk. The root has depth 0. -/
structure Visited where
  path : Path
  depth : Nat
  kind : Entry.Kind

namespace Visited

/-- The name of the entry; the root may have none and is called by its path then. -/
def name (visited : Visited) : Bytes :=
  visited.path.fileName?.getD visited.path.bytes

def inner (folder : Visited) (named : Bytes × Entry) : Visited :=
  ⟨folder.path.join named.1, folder.depth + 1, named.2.kind⟩

end Visited

/-- What a walk finds below a root on a disk, keeping only some of the entries. -/
abbrev Walk := Disk → Path → (Visited → Bool) → List (Except Disk.Fault Visited)

/-- The findings of a walk at an entry and below it. -/
inductive Entry.Visits (keep : Visited → Bool) :
    Visited → Entry → List (Except Disk.Fault Visited) → Prop where
  | pruned {visited : Visited} (hkeep : keep visited = false) (entry : Entry) :
    Visits keep visited entry []
  | leaf {visited : Visited} (hkeep : keep visited = true) {entry : Entry}
    (hkind : entry.kind ≠ .folder) : Visits keep visited entry [.ok visited]
  | closed {visited : Visited} (hkeep : keep visited = true) {entry : Entry}
    (hkind : entry.kind = .folder) (fault : Disk.Fault) :
    Visits keep visited (.locked entry) [.ok visited, .error fault]
  | folder {visited : Visited} (hkeep : keep visited = true)
    {entries sorted : List (Bytes × Entry)} (hperm : sorted.Perm entries)
    (hsorted : sorted.Pairwise fun a b => ¬ b.1 < a.1)
    {found : Bytes × Entry → List (Except Disk.Fault Visited)}
    (hfound : ∀ named ∈ entries, Visits keep (visited.inner named) named.2 (found named)) :
    Visits keep visited (.folder entries) (.ok visited :: sorted.flatMap found)

/-- From a folder a walk goes depth first. A root that is a link to a folder may be shown as
either. -/
def Walk.IsDepthFirst (walk : Walk) : Prop :=
  ∀ (disk : Disk) (root : Path) (keep : Visited → Bool) (entry : Entry),
    disk.find root = .ok entry → entry.kind = .folder →
      ∃ kind, kind ≠ .file ∧ entry.Visits keep ⟨root, 0, kind⟩ (walk disk root keep)

namespace Entry

def nameNotAfter {α : Type} (a b : Bytes × α) : Bool :=
  !decide (b.1 < a.1)

mutual

def inside (keep : Visited → Bool) (visited : Visited) : Entry → List (Except Disk.Fault Visited)
  | folder entries => ((insideEach keep visited entries).mergeSort nameNotAfter).flatMap Prod.snd
  | locked entry => if entry.kind = .folder then [.error .denied] else []
  | _ => []

/-- For each entry of a folder, its name and the findings at it. -/
def insideEach (keep : Visited → Bool) (folder : Visited) :
    List (Bytes × Entry) → List (Bytes × List (Except Disk.Fault Visited))
  | [] => []
  | (name, entry) :: rest =>
    let visited := folder.inner (name, entry)
    (name, bif keep visited then .ok visited :: inside keep visited entry else []) ::
      insideEach keep folder rest

end

def visits (keep : Visited → Bool) (visited : Visited) (entry : Entry) :
    List (Except Disk.Fault Visited) :=
  bif keep visited then .ok visited :: inside keep visited entry else []

end Entry

def Disk.walk : Walk := fun disk root keep =>
  match disk.find root with
  | .ok entry => entry.visits keep ⟨root, 0, entry.kind⟩
  | .error fault => [.error fault]

end SuiteIndex
