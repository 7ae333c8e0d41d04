import SuiteIndex.Disk.Walk
import SuiteIndex.Text.Lowercase

/-! # Scanning folders

A scan walks through a folder and lists the files that have one of the wanted extensions.
Hidden entries, whose names start with a dot, can be left out; the folder the scan starts from
is never left out. What cannot be opened is passed over.
-/

namespace SuiteIndex

/-- Which files a scan picks up. -/
structure ScanOptions where
  extensions : List Text
  skipHidden : Bool

namespace ScanOptions

def default : ScanOptions :=
  ⟨["robot".toList, "resource".toList, "txt".toList, "py".toList], true⟩

/-- Look for these extensions; dots in front of them and their case do not matter. -/
def withExtensions (options : ScanOptions) (extensions : List Text) : ScanOptions :=
  { options with extensions := extensions.map fun e => Text.lower (e.dropWhile (· = '.')) }

def withHidden (options : ScanOptions) (skip : Bool) : ScanOptions :=
  { options with skipHidden := skip }

def accepts (options : ScanOptions) (path : Path) : Bool :=
  match path.extension? with
  | some extension => options.extensions.any (Text.sameIgnoringAsciiCase · extension)
  | none => false

/-- Whether an entry is hidden and left out. A name that is not UTF-8 hides nothing. -/
def passesOver (options : ScanOptions) (visited : Visited) : Bool :=
  options.skipHidden && 0 < visited.depth &&
    (Bytes.text? visited.name).any (Text.startsWith ['.'])

/-- The file that a finding adds to the scan, if it does. -/
def picked? (options : ScanOptions) : Except Disk.Fault Visited → Option Path
  | .ok visited =>
    bif visited.kind = .file && options.accepts visited.path then some visited.path else none
  | .error _ => none

end ScanOptions

def Disk.scan (walk : Walk) (disk : Disk) (options : ScanOptions) (root : Path) :
    Except Disk.Fault (List Path) := do
  let entry ← disk.find root
  if entry.kind = .folder then
    return (walk disk root (!options.passesOver ·)).filterMap options.picked?
  else .error .notAFolder

end SuiteIndex
