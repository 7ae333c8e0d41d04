import SuiteIndex.Library.Json

/-! # Library definitions

A library is described by a JSON object with a name, a version and keywords; a keyword
has a name, arguments and a documentation. All but the names may be left out, unknown
fields are passed over, and either object may also be written as an array of its
fields. Arguments are a list of strings, or one string with commas in between.
-/

namespace SuiteIndex

/-- How arguments are written. -/
inductive ArgumentList where
  | joined (text : Text)
  | list (items : List Text)

namespace ArgumentList

/-- The arguments without white space around them; empty ones do not count. -/
def names (arguments : ArgumentList) : List Text :=
  let raw := match arguments with
    | joined text => Text.splitOn ',' text
    | list items => items
  (raw.map Text.trim).filter (!·.isEmpty)

def ofValue? : Json.Value → Option ArgumentList
  | .text content => some (joined content)
  | .list items => (items.mapM Json.Value.text?).map list
  | .other => none

end ArgumentList

structure KeywordDefinition where
  name : Text
  arguments : ArgumentList
  documentation : Text

structure LibraryDefinition where
  name : Text
  version : Text
  keywords : List KeywordDefinition

namespace KeywordDefinition
open Json

/-- The fields met so far. -/
structure Draft where
  name : Option Text
  arguments : Option ArgumentList
  documentation : Option Text

def Draft.empty : Draft :=
  ⟨none, none, none⟩

def Draft.finish (draft : Draft) : Except Fault KeywordDefinition :=
  match draft.name with
  | some name => .ok ⟨name, draft.arguments.getD (.list []), draft.documentation.getD []⟩
  | none => .error .mismatched

/-- How deep arguments may nest: the library, its keywords and the keyword itself
have used up three of 128 levels. -/
def argumentDepth : Nat := 125

def readArguments (t : Text) : Except Fault (ArgumentList × Text) := do
  let (value, t) ← Json.value (2 * t.length + 2) argumentDepth t
  match ArgumentList.ofValue? value with
  | some arguments => return (arguments, t)
  | none => .error .mismatched

/-- The fields of an object. A field may be given only once. -/
def fields : Nat → Bool → Draft → Text → Except Fault (KeywordDefinition × Text)
  | 0, _, _, _ => .error .truncated
  | bound + 1, first, draft, t => do
    let (key?, t) ← nextKey first t
    match key? with
    | none => return (← draft.finish, t)
    | some key =>
      if key = "name".toList then
        if draft.name.isSome then .error .mismatched
        else
          let (name, t) ← Json.text (← colon t)
          fields bound false { draft with name := some name } t
      else if key = "args".toList then
        if draft.arguments.isSome then .error .mismatched
        else
          let (arguments, t) ← readArguments (← colon t)
          fields bound false { draft with arguments := some arguments } t
      else if key = "doc".toList then
        if draft.documentation.isSome then .error .mismatched
        else
          let (documentation, t) ← Json.text (← colon t)
          fields bound false { draft with documentation := some documentation } t
      else fields bound false draft (← skipValue (← colon t))

/-- The fields of an array, behind its opening bracket. -/
def row (t : Text) : Except Fault (KeywordDefinition × Text) := do
  let (more, t) ← nextElement true t
  if !more then .error .mismatched
  else
    let (name, t) ← Json.text t
    let (more, t) ← nextElement false t
    let (arguments, t) ← if more then readArguments t else pure (.list [], t)
    let (more, t) ← if more then nextElement false t else pure (false, t)
    let (documentation, t) ← if more then Json.text t else pure ([], t)
    return (⟨name, arguments, documentation⟩, ← endArray t)

def read (t : Text) : Except Fault (KeywordDefinition × Text) :=
  match skipBlanks t with
  | [] => .error .truncated
  | '\x7b' :: t => fields (t.length + 1) true .empty t
  | '[' :: t => row t
  | t => .error (mismatch t)

/-- The keywords of an array, behind its opening bracket. -/
def elements : Nat → Bool → Text → Except Fault (List KeywordDefinition × Text)
  | 0, _, _ => .error .truncated
  | bound + 1, first, t => do
    let (more, t) ← nextElement first t
    if more then
      let (keyword, t) ← read t
      let (rest, t) ← elements bound false t
      return (keyword :: rest, t)
    else return ([], ← endArray t)

def readAll (t : Text) : Except Fault (List KeywordDefinition × Text) :=
  match skipBlanks t with
  | [] => .error .truncated
  | '[' :: t => elements (t.length + 1) true t
  | t => .error (mismatch t)

end KeywordDefinition

namespace LibraryDefinition
open Json

/-- The fields met so far. -/
structure Draft where
  name : Option Text
  version : Option Text
  keywords : Option (List KeywordDefinition)

def Draft.empty : Draft :=
  ⟨none, none, none⟩

def Draft.finish (draft : Draft) : Except Fault LibraryDefinition :=
  match draft.name with
  | some name => .ok ⟨name, draft.version.getD [], draft.keywords.getD []⟩
  | none => .error .mismatched

/-- The fields of an object. A field may be given only once. -/
def fields : Nat → Bool → Draft → Text → Except Fault (LibraryDefinition × Text)
  | 0, _, _, _ => .error .truncated
  | bound + 1, first, draft, t => do
    let (key?, t) ← nextKey first t
    match key? with
    | none => return (← draft.finish, t)
    | some key =>
      if key = "name".toList then
        if draft.name.isSome then .error .mismatched
        else
          let (name, t) ← Json.text (← colon t)
          fields bound false { draft with name := some name } t
      else if key = "version".toList then
        if draft.version.isSome then .error .mismatched
        else
          let (version, t) ← Json.text (← colon t)
          fields bound false { draft with version := some version } t
      else if key = "keywords".toList then
        if draft.keywords.isSome then .error .mismatched
        else
          let (keywords, t) ← KeywordDefinition.readAll (← colon t)
          fields bound false { draft with keywords := some keywords } t
      else fields bound false draft (← skipValue (← colon t))

/-- The fields of an array, behind its opening bracket. -/
def row (t : Text) : Except Fault (LibraryDefinition × Text) := do
  let (more, t) ← nextElement true t
  if !more then .error .mismatched
  else
    let (name, t) ← Json.text t
    let (more, t) ← nextElement false t
    let (version, t) ← if more then Json.text t else pure ([], t)
    let (more, t) ← if more then nextElement false t else pure (false, t)
    let (keywords, t) ← if more then KeywordDefinition.readAll t else pure ([], t)
    return (⟨name, version, keywords⟩, ← endArray t)

/-- Read a definition; nothing but blanks may follow it. -/
def read (t : Text) : Except Fault LibraryDefinition := do
  let (definition, rest) ← match skipBlanks t with
    | [] => .error .truncated
    | '\x7b' :: t => fields (t.length + 1) true .empty t
    | '[' :: t => row t
    | t => .error (mismatch t)
  if (skipBlanks rest).isEmpty then return definition else .error .malformed

end LibraryDefinition

end SuiteIndex
