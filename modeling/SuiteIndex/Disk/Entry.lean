import SuiteIndex.Path

/-! # A disk

Folders with named entries, as a tree below the root. A path is followed from the root or from
the current folder, through links and up again by double dots, as far as the way is open.
-/

namespace SuiteIndex

/-- Why a path leads nowhere, or why there is no text at its end. -/
inductive Disk.Fault where
  | notFound
  | notAFolder
  | isAFolder
  | denied
  | tooManyLinks
  /-- The bytes are not UTF-8. -/
  | notText
deriving DecidableEq

inductive Entry where
  | file (bytes : ByteArray)
  | folder (entries : List (Bytes × Entry))
  | link (target : Path)
  /-- A device, a pipe or a socket, with what comes of reading it. -/
  | special (reading : Except Disk.Fault ByteArray)
  /-- An entry that may not be opened. -/
  | locked (entry : Entry)

namespace Entry

inductive Kind where
  | file
  | folder
  | other
deriving DecidableEq

/-- An entry shows its kind also if it may not be opened. -/
def kind : Entry → Kind
  | file _ => .file
  | folder _ => .folder
  | link _ | special _ => .other
  | locked entry => entry.kind

/-- Give an entry a new value, or make it the last one. -/
def set (name : Bytes) (entry : Entry) : List (Bytes × Entry) → List (Bytes × Entry)
  | [] => [(name, entry)]
  | (other, old) :: rest =>
    if other = name then (name, entry) :: rest else (other, old) :: set name entry rest

/-- The entries of a folder; anything else has none. -/
def entries : Entry → List (Bytes × Entry)
  | folder entries => entries
  | _ => []

/-- Put an entry at the end of a chain of names, making folders on the way. A folder
that is there already stays. -/
def put (entry : Entry) : List Bytes → List (Bytes × Entry) → List (Bytes × Entry)
  | [], siblings => siblings
  | [name], siblings =>
    match siblings.lookup name with
    | some (.folder _) => siblings
    | _ => set name entry siblings
  | name :: rest, siblings =>
    set name (.folder (put entry rest ((siblings.lookup name).elim [] entries))) siblings

/-- Follow the pieces of a path from an entry; `above` holds the folders it lies in, nearest
first. An empty piece or a dot stays where it is, but only a folder has pieces below it. The
root lies in itself. A link hands over to `jump`, with the folder it lies in and what is left
of the path. -/
def descend (jump : List Entry → Entry → Path → List Bytes → Except Disk.Fault Entry)
    (above : List Entry) : Entry → List Bytes → Except Disk.Fault Entry
  | entry, [] => .ok entry
  | folder inner, piece :: rest =>
    if piece = [] || piece = [Path.dot] then descend jump above (folder inner) rest
    else if piece = [Path.dot, Path.dot] then
      match above with
      | outer :: more => descend jump more outer rest
      | [] => descend jump [] (folder inner) rest
    else match inner.lookup piece with
      | some (link target) => jump above (folder inner) target rest
      | some entry => descend jump (folder inner :: above) entry rest
      | none => .error .notFound
  | locked (folder _), _ :: _ => .error .denied
  | _, _ :: _ => .error .notAFolder

/-- Follow the pieces of a path below a root through at most so many links. -/
def follow (root : Entry) : Nat → List Entry → Entry → List Bytes → Except Disk.Fault Entry
  | 0 => descend fun _ _ _ _ => .error .tooManyLinks
  | links + 1 => descend fun above folder target rest =>
    if target.isAbsolute then follow root links [] root (target.pieces ++ rest)
    else follow root links above folder (target.pieces ++ rest)

end Entry

structure Disk where
  /-- The entries of the root. -/
  entries : List (Bytes × Entry)
  /-- The names on the way from the root to the current folder. -/
  current : List Bytes

namespace Disk

def empty : Disk :=
  ⟨[], []⟩

def root (disk : Disk) : Entry :=
  .folder disk.entries

/-- The pieces of a path on its way from the root. -/
def piecesOf (disk : Disk) (path : Path) : List Bytes :=
  if path.isAbsolute then path.pieces else disk.current ++ path.pieces

/-- Put an entry at a path; dots in it are passed over. -/
def put (disk : Disk) (path : Path) (entry : Entry) : Disk :=
  let names := path.components.filterMap fun
    | .name name => some name
    | _ => none
  { disk with
    entries := entry.put (if path.isAbsolute then names else disk.current ++ names) disk.entries }

def find (disk : Disk) (path : Path) : Except Fault Entry :=
  if path.bytes.isEmpty then .error .notFound
  else disk.root.follow 40 [] disk.root (disk.piecesOf path)

def decode (bytes : ByteArray) : Except Fault Text :=
  match String.fromUTF8? bytes with
  | some text => .ok text.toList
  | none => .error .notText

def readText (disk : Disk) (path : Path) : Except Fault Text := do
  match ← disk.find path with
  | .file bytes => decode bytes
  | .special reading => decode (← reading)
  | .folder _ => .error .isAFolder
  | .locked _ => .error .denied
  -- A path never ends at a link.
  | .link _ => .error .notFound

end Disk

end SuiteIndex
