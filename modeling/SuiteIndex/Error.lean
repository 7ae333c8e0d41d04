import SuiteIndex.Path

/-! # What can go wrong with a source file

Rows that make no sense are dropped without an error. What remains are settings
handed to a function that does not take them, and paths whose extension does not
tell how to read the file.
-/

namespace SuiteIndex

inductive SourceError where
  /-- The owner takes no setting of this kind. -/
  | unexpectedSetting (setting owner : Text) (line : Nat)
  /-- The setting came without cells. -/
  | emptySetting (setting owner : Text)
  | missingExtension (path : Path)
  | unsupportedExtension (extension : Text)

namespace SourceError

def message : SourceError → Text
  | unexpectedSetting setting owner line =>
    owner ++ " does not accept setting [".toList ++ setting ++ "] (line ".toList ++
      Nat.toDigits 10 line ++ ")".toList
  | emptySetting setting owner =>
    owner ++ " setting [".toList ++ setting ++ "] has no cells".toList
  | missingExtension path => "No file extension: ".toList ++ path.shown
  | unsupportedExtension extension => "Unsupported file extension: ".toList ++ extension

end SourceError

end SuiteIndex
