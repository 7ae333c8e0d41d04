import SuiteIndex.Text

/-! # Tokens of a cell

A cell is cut into variable references, written as a sigil and a name in braces,
into sigils that open no complete reference, and into plain text between them.
-/

namespace SuiteIndex

namespace Token

inductive Kind where
  | reference
  | plain
  | sigil
deriving DecidableEq

end Token

/-- A piece of a cell, with its offsets in the cell. -/
structure Token where
  kind : Token.Kind
  text : Text
  start : Nat
  stop : Nat
deriving DecidableEq

namespace Token

def isSigil (c : Char) : Bool :=
  c = '$' || c = '@' || c = '%' || c = '&'

def isReference (token : Token) : Bool :=
  token.kind = .reference

/-- The name in braces at the start of a text: at least one character, none of
them a closing brace. -/
def bracedName? : Text → Option Text
  | '\x7b' :: t =>
    let name := t.takeWhile (· ≠ '\x7d')
    if name.isEmpty || (t.dropWhile (· ≠ '\x7d')).isEmpty then none else some name
  | _ => none

def parts? (token : Token) : Option (Char × Text) :=
  match token.kind, token.text with
  | .reference, sigil :: rest => some (sigil, (rest.drop 1).dropLast)
  | _, _ => none

/-- The kind and the text of the first token of a non-empty text. -/
def lead (c : Char) (t : Text) : Kind × Text :=
  if isSigil c then
    match bracedName? t with
    | some name => (.reference, c :: '\x7b' :: name ++ ['\x7d'])
    | none => (.sigil, [c])
  else (.plain, c :: t.takeWhile (!isSigil ·))

/-- The tokens of a text whose first character has offset `offset`. -/
def scanFrom (offset : Nat) : Text → List Token
  | [] => []
  | c :: t =>
    let (kind, text) := lead c t
    ⟨kind, text, offset, offset + text.length⟩ ::
      scanFrom (offset + text.length) (t.drop (text.length - 1))
termination_by t => t.length
decreasing_by
  simp only [List.length_drop, List.length_cons]
  omega

def scan (content : Text) : List Token :=
  scanFrom 0 content

end Token

end SuiteIndex
