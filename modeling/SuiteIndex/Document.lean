import SuiteIndex.Script.Reading
import SuiteIndex.Suite.Reading

/-! # Documents

A document is a source text that has been read. The extension of its path decides the
language, and the file name without extension is the name of its module.
-/

namespace SuiteIndex

inductive Language where
  /-- Test data in tables. -/
  | tabular
  /-- A keyword library in Python. -/
  | python
deriving DecidableEq

namespace Language

def tabularExtensions : List Text :=
  ["robot".toList, "resource".toList, "txt".toList]

def pythonExtension : Text := "py".toList

/-- The language of files with this extension, whatever its case. -/
def ofExtension? (extension : Text) : Option Language :=
  let key := Text.lower extension
  if tabularExtensions.contains key then some .tabular
  else if key = pythonExtension then some .python
  else none

end Language

namespace Path

def extension (path : Path) : Except SourceError Text :=
  match path.extension? with
  | some extension => .ok extension
  | none => .error (.missingExtension path)

def language (path : Path) : Except SourceError Language := do
  let extension ← path.extension
  match Language.ofExtension? extension with
  | some language => return language
  | none => .error (.unsupportedExtension extension)

/-- The file name without extension, or no name at all if that is no UTF-8. -/
def moduleName (path : Path) : Text :=
  (path.stem?.bind Bytes.text?).getD []

end Path

structure Document where
  suite : Suite
  moduleName : Text
  language : Language

namespace Document

/-- Read a text of a given language as the module of a given name. -/
def read (language : Language) (moduleName text : Text) : Except SourceError Document :=
  match language with
  | .tabular => (Suite.read moduleName text).map fun suite => ⟨suite, moduleName, .tabular⟩
  | .python => .ok ⟨Script.read moduleName text, moduleName, .python⟩

def ofContent (path : Path) (text : Text) : Except SourceError Document := do
  read (← path.language) path.moduleName text

end Document

end SuiteIndex
