import SuiteIndex.Text.Utf8

/-! # File paths

A path is a string of bytes, for names of files need not be UTF-8. It keeps the bytes it was
written with, and is compared by its components: repeated and trailing slashes and inner single
dots make no difference, while a leading dot and double dots do.
-/

namespace SuiteIndex

structure Path where
  bytes : Bytes
deriving DecidableEq

namespace Path

def slash : UInt8 := 0x2F

def dot : UInt8 := 0x2E

def ofText (t : Text) : Path :=
  ⟨t.utf8⟩

def shown (path : Path) : Text :=
  Bytes.shown path.bytes

inductive Component where
  | root
  | here
  | parent
  | name (name : Bytes)
deriving DecidableEq

/-- The component a piece between slashes stands for, if it stands for one. -/
def Component.ofPiece? (piece : Bytes) : Option Component :=
  if piece = [] || piece = [dot] then none
  else if piece = [dot, dot] then some .parent
  else some (.name piece)

def pieces (path : Path) : List Bytes :=
  Text.splitOn slash path.bytes

def isAbsolute (path : Path) : Bool :=
  path.bytes.head? = some slash

def components (path : Path) : List Component :=
  let named := path.pieces.filterMap Component.ofPiece?
  if path.isAbsolute then .root :: named
  else if path.pieces.head? = some [dot] then .here :: named
  else named

/-- Two paths are the same when their components agree. -/
def same (p q : Path) : Bool :=
  p.components = q.components

instance : BEq Path := ⟨same⟩

def fileName? (path : Path) : Option Bytes :=
  match path.components.getLast? with
  | some (.name name) => some name
  | _ => none

/-- A file name cut at its last dot; a dot in front cuts nothing. -/
def cutName (name : Bytes) : Bytes × Option Bytes :=
  match Text.splitLast dot name with
  | some ([], _) => (name, none)
  | some (stem, extension) => (stem, some extension)
  | none => (name, none)

def extension? (path : Path) : Option Text := do
  Bytes.text? (← (cutName (← path.fileName?)).2)

def stem? (path : Path) : Option Bytes :=
  path.fileName?.map fun name => (cutName name).1

def join (folder : Path) (name : Bytes) : Path :=
  if folder.bytes.isEmpty || folder.bytes.getLast? = some slash then ⟨folder.bytes ++ name⟩
  else ⟨folder.bytes ++ slash :: name⟩

end Path

end SuiteIndex
