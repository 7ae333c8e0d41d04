import SuiteIndex.Script.Signature

/-! # Keyword libraries written in Python

The functions at the top level of a module and the methods of its top-level classes
are keywords. Bodies of functions are not looked at.
-/

namespace SuiteIndex.Script

/-- Where methods may be defined: inside a top-level class, at the indentation of its
first line. -/
structure Scope where
  inClass : Bool
  methodIndent : Option Nat

namespace Scope

def outside : Scope :=
  ⟨false, none⟩

/-- The scope of a line with this indentation and text. -/
def observe (scope : Scope) (indent : Nat) (text : Text) : Scope :=
  if indent = 0 then ⟨Text.startsWith "class ".toList text, none⟩
  else if scope.inClass && scope.methodIndent.isNone then ⟨true, some indent⟩
  else scope

/-- Whether a function at this indentation is a keyword. -/
def accepts (scope : Scope) (indent : Nat) : Bool :=
  indent = 0 || (scope.inClass && scope.methodIndent = some indent)

end Scope

def opensDefinition (text : Text) : Bool :=
  Text.startsWith "def ".toList text || Text.startsWith "async def ".toList text

/-- The keywords of numbered lines. Blank lines and comments are passed over. -/
def keywords (moduleName : Text) (scope : Scope) (number : Nat) : List Text → List UserKeyword
  | [] => []
  | line :: rest =>
    let text := Text.trimStart line
    if text.isEmpty || Text.startsWith ['#'] text then
      keywords moduleName scope (number + 1) rest
    else
      let indent := Text.indentation line
      let scope := scope.observe indent text
      if opensDefinition text && scope.accepts indent then
        let (glyphs, count) := signature number ⟨0, false⟩ (line :: rest)
        (keyword? moduleName number line glyphs).toList ++
          keywords moduleName scope (number + count) (rest.drop (count - 1))
      else keywords moduleName scope (number + 1) rest
termination_by lines => lines.length
decreasing_by all_goals simp only [List.length_drop, List.length_cons]; omega

/-- From the start of the first line to the end of the last one. -/
def spanOfLines (lines : List Text) : Span :=
  match lines.getLast? with
  | some last => ⟨⟨0, 0⟩, ⟨lines.length - 1, last.length⟩⟩
  | none => .point ⟨0, 0⟩

/-- The suite of a module: nothing but a table of its keywords. -/
def read (moduleName text : Text) : Suite :=
  let lines := Text.feedLines text
  let location : Location := .parsed (spanOfLines lines)
  { Suite.empty location with
    keywords? := some ⟨keywords moduleName .outside 0 lines, location⟩ }

end SuiteIndex.Script
