/-! # Text as lists of characters

All texts of the library are lists of Unicode scalar values, so that columns,
offsets and lengths count characters. This module holds white space, trimming,
cutting and the order of texts.
-/

namespace SuiteIndex

abbrev Text := List Char

namespace Text

/-- White space of Unicode: the separators, the controls from tab to carriage
return, and next line. A zero-width space is not white space. -/
def isBlank (c : Char) : Bool :=
  let n := c.toNat
  (9 ≤ n && n ≤ 13) || n == 0x20 || n == 0x85 || n == 0xA0 || n == 0x1680 ||
    (0x2000 ≤ n && n ≤ 0x200A) || n == 0x2028 || n == 0x2029 || n == 0x202F ||
    n == 0x205F || n == 0x3000

def trimStart (t : Text) : Text :=
  t.dropWhile isBlank

/-- Drop the longest tail of characters that satisfy `p`. -/
def dropEndWhile (p : Char → Bool) (t : Text) : Text :=
  (t.reverse.dropWhile p).reverse

/-- Remove characters that satisfy `p` from both ends. -/
def trimBy (p : Char → Bool) (t : Text) : Text :=
  dropEndWhile p (t.dropWhile p)

def trim (t : Text) : Text :=
  trimBy isBlank t

/-- The number of white-space characters at the start. -/
def indentation (t : Text) : Nat :=
  (t.takeWhile isBlank).length

def startsWith (start t : Text) : Bool :=
  start.isPrefixOf t

/-- What follows `start`, when the text begins with it. -/
def after? (start t : Text) : Option Text :=
  if start.isPrefixOf t then some (t.drop start.length) else none

def find? (part : Text) : Text → Option Nat
  | [] => if part.isEmpty then some 0 else none
  | c :: t => if part.isPrefixOf (c :: t) then some 0 else (find? part t).map (· + 1)

def contains (part t : Text) : Bool :=
  (find? part t).isSome

def splitFirst (mark : Char) : Text → Option (Text × Text)
  | [] => none
  | c :: t =>
    if c = mark then some ([], t)
    else (splitFirst mark t).map fun (before, behind) => (c :: before, behind)

def splitLast {α : Type} [DecidableEq α] (mark : α) : List α → Option (List α × List α)
  | [] => none
  | c :: t =>
    match splitLast mark t with
    | some (before, behind) => some (c :: before, behind)
    | none => if c = mark then some ([], t) else none

/-- The pieces between the occurrences of `mark`, at least one. -/
def splitOn {α : Type} [DecidableEq α] (mark : α) : List α → List (List α)
  | [] => [[]]
  | c :: t =>
    if c = mark then [] :: splitOn mark t
    else match splitOn mark t with
      | piece :: pieces => (c :: piece) :: pieces
      | [] => [[c]]

def join (glue : Text) : List Text → Text
  | [] => []
  | [t] => t
  | t :: u :: rest => t ++ glue ++ join glue (u :: rest)

/-- Strict order by code points, a proper beginning coming first. -/
def before : Text → Text → Bool
  | _, [] => false
  | [], _ :: _ => true
  | a :: s, b :: t => a.toNat < b.toNat || (a = b && before s t)

def notAfter (s t : Text) : Bool :=
  !before t s

def sameIgnoringAsciiCase (s t : Text) : Bool :=
  s.map Char.toLower = t.map Char.toLower

def consFirst (c : Char) : List Text → List Text
  | [] => [[c]]
  | piece :: rest => (c :: piece) :: rest

/-- The pieces between line terminators: a carriage return and a line feed
together, or either one alone. -/
def pieces : Text → List Text
  | [] => [[]]
  | '\r' :: '\n' :: t => [] :: pieces t
  | c :: t => if c = '\r' || c = '\n' then [] :: pieces t else consFirst c (pieces t)

/-- Forget an empty last piece that follows another one. -/
def dropFinalEmpty : List Text → List Text
  | [] => []
  | [t] => [t]
  | t :: u :: rest => if u.isEmpty && rest.isEmpty then [t] else t :: dropFinalEmpty (u :: rest)

/-- Physical lines. A terminator at the very end opens no further line, and a
text without terminators is one line. -/
def lines (t : Text) : List Text :=
  dropFinalEmpty (pieces t)

/-- Lines ended by line feeds alone. A carriage return right before the line
feed belongs to the terminator, any other one to the line. The piece after the
last line feed is a line only if it is not empty. -/
def feedLines : Text → List Text
  | [] => []
  | '\r' :: '\n' :: t => [] :: feedLines t
  | c :: t => if c = '\n' then [] :: feedLines t else consFirst c (feedLines t)

end Text

end SuiteIndex
