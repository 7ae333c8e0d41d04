import SuiteIndex.Suite.Body

/-! # Signatures of Python functions

A signature runs from the line of its `def` to the line on which its brackets are
closed. Of a signature only the name and the parameters matter. Each of its
characters remembers where it stands in the source.
-/

namespace SuiteIndex.Script

/-- A character and its place. -/
structure Glyph where
  char : Char
  position : Position

def isOpening (c : Char) : Bool :=
  c = '(' || c = '[' || c = '\x7b'

def isClosing (c : Char) : Bool :=
  c = ')' || c = ']' || c = '\x7d'

def depthAfter (depth : Nat) (c : Char) : Nat :=
  if isOpening c then depth + 1 else if isClosing c then depth - 1 else depth

/-- How far a signature has been read: the depth of brackets, and whether there was
any bracket. -/
structure Progress where
  depth : Nat
  opened : Bool

def Progress.isDone (progress : Progress) : Bool :=
  progress.opened && progress.depth = 0

/-- The characters of a line from `column` on. Inside brackets a hash sign starts a
comment. -/
def glyphsOf (line column : Nat) (progress : Progress) : Text → List Glyph × Progress
  | [] => ([], progress)
  | c :: t =>
    if c = '#' && 0 < progress.depth then ([], progress)
    else
      let (glyphs, last) := glyphsOf line (column + 1)
        ⟨depthAfter progress.depth c, progress.opened || isOpening c⟩ t
      (⟨c, ⟨line, column⟩⟩ :: glyphs, last)

/-- The signature that starts on the first of the given lines, and the number of
lines it takes. The end of a line that does not complete it counts as a space. A
signature that is never completed takes all lines. -/
def signature (number : Nat) (progress : Progress) : List Text → List Glyph × Nat
  | [] => ([], 0)
  | line :: rest =>
    let (glyphs, progress) := glyphsOf number 0 progress line
    if progress.isDone then (glyphs, 1)
    else
      let (more, count) := signature (number + 1) progress rest
      (glyphs ++ ⟨' ', ⟨number, line.length⟩⟩ :: more, count + 1)

/-- From the character at index `first` to the one before index `last`. -/
def spanOf (glyphs : List Glyph) (first last : Nat) : Span :=
  let start := (glyphs[first]?.map Glyph.position).getD ⟨0, 0⟩
  let stop := if last = 0 then none else glyphs[last - 1]?
  ⟨start, (stop.map fun glyph => ⟨glyph.position.line, glyph.position.column + 1⟩).getD start⟩

/-- The index of the bracket that closes the first one of a text whose characters are
counted from `index`. -/
def closing? (depth index : Nat) : Text → Option Nat
  | [] => none
  | c :: t =>
    if isClosing c && depth ≤ 1 then some index
    else closing? (depthAfter depth c) (index + 1) t

/-- Put a character in front of the first parameter. -/
def consParameter (index : Nat) (c : Char) : List (Nat × Text) → List (Nat × Text)
  | [] => [(index, [c])]
  | (_, text) :: rest => (index, c :: text) :: rest

/-- The parameters of a text counted from `index`, each with the index of its first
character. A comma in brackets or in quotes separates nothing. -/
def parameters (index depth : Nat) (quote : Option Char) : Text → List (Nat × Text)
  | [] => [(index, [])]
  | c :: t =>
    match quote with
    | none =>
      if c = ',' && depth = 0 then (index, []) :: parameters (index + 1) 0 none t
      else if c = '\x27' || c = '\x22' then
        consParameter index c (parameters (index + 1) depth (some c) t)
      else consParameter index c (parameters (index + 1) (depthAfter depth c) none t)
    | some q =>
      consParameter index c (parameters (index + 1) depth (if c = q then none else some q) t)

/-- One star makes a list parameter, two make a dictionary. -/
def starsOf : Text → VariableKind × Nat
  | '*' :: '*' :: _ => (.dictionary, 2)
  | '*' :: _ => (.list, 1)
  | _ => (.scalar, 0)

/-- The declaration of a parameter that starts at index `start`: a name, perhaps with
a type behind a colon and a default behind an equals sign. A lone star or slash and
a leading `self` declare nothing. -/
def parameter? (glyphs : List Glyph) (isFirst : Bool) (start : Nat) (raw : Text) :
    Option Declaration :=
  let trimmed := Text.trim raw
  if trimmed.isEmpty || trimmed = ['*'] || trimmed = ['/'] ||
      (isFirst && trimmed = "self".toList) then none
  else
    let (kind, stars) := starsOf trimmed
    let (head, default?) := match Text.splitFirst '=' trimmed with
      | some (head, default) => (head, some default)
      | none => (trimmed, none)
    let name := Text.trim ((Text.trim (head.takeWhile (· ≠ ':'))).drop stars)
    if name.isEmpty then none
    else
      let first := start + Text.indentation raw
      let values := default?.toList.map fun default =>
        let value := Text.trim default
        let valueStart := first + head.length + 1 + Text.indentation default
        Expression.ofCell ⟨value, spanOf glyphs valueStart (valueStart + value.length)⟩
      some {
        id := ⟨none, name, .parsed (spanOf glyphs (first + stars) (first + stars + name.length))⟩
        kind := kind
        values := values
        location := .parsed (spanOf glyphs first (first + trimmed.length)) }

/-- The declarations of the parameters; `isFirst` holds for the first of them. -/
def declarations (glyphs : List Glyph) (isFirst : Bool) : List (Nat × Text) → List Declaration
  | [] => []
  | (start, raw) :: rest =>
    (parameter? glyphs isFirst start raw).toList ++ declarations glyphs false rest

/-- The keyword of a signature whose `def` stands on the given line. A name that starts
with an underscore is private. -/
def keyword? (moduleName : Text) (number : Nat) (line : Text) (glyphs : List Glyph) :
    Option UserKeyword := do
  let text := glyphs.map Glyph.char
  let defined ← Text.find? "def ".toList text
  let behind := text.drop (defined + 4)
  let width ← Text.find? ['('] behind
  let raw := behind.take width
  let name := Text.trim raw
  if name.isEmpty || Text.startsWith ['_'] name then none
  let start := defined + 4 + Text.indentation raw
  let id : Identifier := .declared moduleName
    ⟨none, name, .parsed (spanOf glyphs start (start + name.length))⟩
  let opened := defined + 4 + width
  let closed ← closing? 0 opened (text.drop opened)
  let inside := (text.drop (opened + 1)).take (closed - (opened + 1))
  let brackets : Location := .parsed (spanOf glyphs opened (closed + 1))
  return { UserKeyword.named id with
    arguments := some {
      id := ⟨none, "Arguments".toList, brackets⟩
      values := declarations glyphs true (parameters (opened + 1) 0 none inside)
      location := brackets }
    location := .parsed (.onLine number 0 line.length) }

end SuiteIndex.Script
