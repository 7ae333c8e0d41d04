import SuiteIndex.Text

/-! # Reading JSON

A reader that goes through a text from left to right and stops at the first fault.
Faults are of three kinds: the text is not JSON, the text ends too early, or it is
JSON of another shape than asked for. Values nobody asks for are skipped, to any
depth; values that are kept may nest only so far.

Each function takes the text still to be read and gives back what it read together
with the rest. Loops are bounded by a count that the length of the text covers.
-/

namespace SuiteIndex.Json

inductive Fault where
  /-- The text is not JSON. -/
  | malformed
  /-- The text ends in the middle of a value. -/
  | truncated
  /-- The text is JSON, but not of the shape asked for. -/
  | mismatched
deriving DecidableEq

def isBlank (c : Char) : Bool :=
  c = ' ' || c = '\t' || c = '\n' || c = '\r'

def skipBlanks (t : Text) : Text :=
  t.dropWhile isBlank

def expect : Text → Text → Except Fault Text
  | [], t => .ok t
  | _ :: _, [] => .error .truncated
  | c :: word, d :: t => if c = d then expect word t else .error .malformed

def hexDigit? (c : Char) : Option Nat :=
  if '0'.toNat ≤ c.toNat && c.toNat ≤ '9'.toNat then some (c.toNat - '0'.toNat)
  else if 'a'.toNat ≤ c.toNat && c.toNat ≤ 'f'.toNat then some (c.toNat - 'a'.toNat + 10)
  else if 'A'.toNat ≤ c.toNat && c.toNat ≤ 'F'.toNat then some (c.toNat - 'A'.toNat + 10)
  else none

def byteCount : Text → Nat
  | [] => 0
  | c :: t => c.utf8Size + byteCount t

/-- Four hexadecimal digits. The text is cut short if fewer than four bytes are left. -/
def hexFour (t : Text) : Except Fault (Nat × Text) :=
  if byteCount (t.take 4) < 4 then .error .truncated
  else match t with
    | a :: b :: c :: d :: rest =>
      match hexDigit? a, hexDigit? b, hexDigit? c, hexDigit? d with
      | some a, some b, some c, some d => .ok (((a * 16 + b) * 16 + c) * 16 + d, rest)
      | _, _, _, _ => .error .malformed
    | _ => .error .malformed

def isHighSurrogate (n : Nat) : Bool :=
  0xD800 ≤ n && n ≤ 0xDBFF

def isLowSurrogate (n : Nat) : Bool :=
  0xDC00 ≤ n && n ≤ 0xDFFF

/-- The character of a numeric escape, behind its `u`. Surrogates must come in pairs. -/
def numericEscape (t : Text) : Except Fault (Char × Text) := do
  let (high, t) ← hexFour t
  if isLowSurrogate high then .error .malformed
  else if isHighSurrogate high then
    let t ← expect ['\\', 'u'] t
    let (low, t) ← hexFour t
    if isLowSurrogate low then
      return (Char.ofNat (0x10000 + (high - 0xD800) * 0x400 + (low - 0xDC00)), t)
    else .error .malformed
  else return (Char.ofNat high, t)

def letterEscape? : Char → Option Char
  | '\x22' => some '\x22'
  | '\\' => some '\\'
  | '/' => some '/'
  | 'b' => some '\x08'
  | 'f' => some '\x0c'
  | 'n' => some '\n'
  | 'r' => some '\r'
  | 't' => some '\t'
  | _ => none

/-- The character of an escape, behind its backslash. In a string that is skipped the
halves of a pair need not match, and its characters do not matter. -/
def escape (skipped : Bool) : Text → Except Fault (Char × Text)
  | [] => .error .truncated
  | 'u' :: t => if skipped then (hexFour t).map fun (_, t) => (' ', t) else numericEscape t
  | c :: t => match letterEscape? c with
    | some d => .ok (d, t)
    | none => .error .malformed

/-- The rest of a string, behind its opening quote. Control characters must be
escaped. -/
def stringBody (skipped : Bool) : Nat → Text → Except Fault (Text × Text)
  | 0, _ => .error .truncated
  | _, [] => .error .truncated
  | bound + 1, c :: t =>
    if c = '\x22' then .ok ([], t)
    else if c = '\\' then do
      let (d, t) ← escape skipped t
      let (s, t) ← stringBody skipped bound t
      return (d :: s, t)
    else if c.toNat < 0x20 then .error .malformed
    else do
      let (s, t) ← stringBody skipped bound t
      return (c :: s, t)

/-- A string that is kept, behind its opening quote. -/
def string (t : Text) : Except Fault (Text × Text) :=
  stringBody false t.length t

/-- A string that is passed over, behind its opening quote. -/
def skipString (t : Text) : Except Fault Text :=
  (stringBody true t.length t).map Prod.snd

def digitsOf (t : Text) : Text :=
  t.takeWhile Char.isDigit

def startsWithDigit : Text → Bool
  | c :: _ => c.isDigit
  | [] => false

/-- The double nearest to a natural number, ties going to the even neighbour. -/
def nearestDouble (n : Nat) : Nat :=
  if n < Nat.pow 2 53 then n
  else
    let unit := Nat.pow 2 (n.log2 - 52)
    let low := n / unit * unit
    if 2 * (n - low) > unit || (2 * (n - low) = unit && n / unit % 2 = 1) then low + unit else low

/-- Whether digits with a decimal exponent are too large for a double. -/
def isTooLarge (digits : Nat) (exponent : Int) : Bool :=
  digits ≠ 0 && 0 ≤ exponent &&
    (308 < exponent ||
      Nat.pow 2 1024 - Nat.pow 2 970 ≤
        nearestDouble digits * nearestDouble (Nat.pow 10 exponent.toNat))

/-- Put further digits behind a number as long as it stays below two to the sixty-fourth;
gives the number and how many digits went in. -/
def appendDigits (n count : Nat) : Text → Nat × Nat
  | [] => (n, count)
  | c :: t =>
    let next := n * 10 + (c.toNat - '0'.toNat)
    if next < Nat.pow 2 64 then appendDigits next (count + 1) t else (n, count)

def ranged (digits : Nat) (exponent : Int) (rest : Text) : Except Fault Text :=
  if isTooLarge digits exponent then .error .malformed else .ok rest

/-- The sign in front of an exponent, and what follows. -/
def exponentSign : Text → Bool × Text
  | '+' :: t => (true, t)
  | '-' :: t => (false, t)
  | t => (true, t)

def exponentPart (digits : Nat) (exponent : Int) (t : Text) : Except Fault Text :=
  let (positive, t) := exponentSign t
  if t.isEmpty then .error .truncated
  else if !startsWithDigit t then .error .malformed
  else
    let rest := t.drop (digitsOf t).length
    let value : Int := (digitsOf t).foldl (fun n c => n * 10 + (c.toNat - '0'.toNat)) 0
    ranged digits (if positive then exponent + value else exponent - value) rest

def exponentOrEnd (digits : Nat) (exponent : Int) : Text → Except Fault Text
  | 'e' :: t => exponentPart digits exponent t
  | 'E' :: t => exponentPart digits exponent t
  | t => ranged digits exponent t

def fraction (digits : Nat) (exponent : Int) (t : Text) : Except Fault Text :=
  if t.isEmpty then .error .truncated
  else if !startsWithDigit t then .error .malformed
  else
    let (digits, count) := appendDigits digits 0 (digitsOf t)
    exponentOrEnd digits (exponent - count) (t.drop (digitsOf t).length)

def number : Text → Except Fault Text
  | [] => .error .truncated
  | '0' :: t =>
    if startsWithDigit t then .error .malformed
    else match t with
      | '.' :: t => fraction 0 0 t
      | t => exponentOrEnd 0 0 t
  | t =>
    if !startsWithDigit t then .error .malformed
    else
      let (digits, count) := appendDigits 0 0 (digitsOf t)
      let exponent : Int := (digitsOf t).length - count
      match t.drop (digitsOf t).length with
      | '.' :: t => fraction digits exponent t
      | t => exponentOrEnd digits exponent t

def skipExponent (t : Text) : Except Fault Text :=
  let t := (exponentSign t).2
  if startsWithDigit t then .ok (t.drop (digitsOf t).length) else .error .malformed

def skipExponentOrEnd : Text → Except Fault Text
  | 'e' :: t => skipExponent t
  | 'E' :: t => skipExponent t
  | t => .ok t

def skipFractionOrEnd : Text → Except Fault Text
  | '.' :: t =>
    if startsWithDigit t then skipExponentOrEnd (t.drop (digitsOf t).length)
    else .error .malformed
  | t => skipExponentOrEnd t

/-- A skipped number, behind its sign. It has no range, and one that is cut short is
malformed. -/
def skipNumber : Text → Except Fault Text
  | '0' :: t => if startsWithDigit t then .error .malformed else skipFractionOrEnd t
  | t =>
    if startsWithDigit t then skipFractionOrEnd (t.drop (digitsOf t).length)
    else .error .malformed

def colon (t : Text) : Except Fault Text :=
  expect [':'] (skipBlanks t)

/-- The next key of an object, none at its end. The closing brace is read too. -/
def nextKey (first : Bool) (t : Text) : Except Fault (Option Text × Text) :=
  match skipBlanks t with
  | [] => .error .truncated
  | '\x7d' :: t => .ok (none, t)
  | c :: t =>
    if first then
      if c = '\x22' then (string t).map fun (key, t) => (some key, t) else .error .malformed
    else if c = ',' then
      match skipBlanks t with
      | [] => .error .truncated
      | '\x22' :: t => (string t).map fun (key, t) => (some key, t)
      | _ => .error .malformed
    else .error .malformed

/-- Whether an array goes on. The closing bracket is not read. -/
def nextElement (first : Bool) (t : Text) : Except Fault (Bool × Text) :=
  match skipBlanks t with
  | [] => .error .truncated
  | ']' :: t => .ok (false, ']' :: t)
  | c :: t =>
    if first then .ok (true, c :: t)
    else if c = ',' then
      match skipBlanks t with
      | [] => .error .truncated
      | ']' :: _ => .error .malformed
      | t => .ok (true, t)
    else .error .malformed

def endArray (t : Text) : Except Fault Text :=
  expect [']'] (skipBlanks t)

/-- Pass over a word, a number or a string; none if the text starts otherwise. -/
def skipScalar? : Text → Option (Except Fault Text)
  | 'n' :: t => some (expect "ull".toList t)
  | 't' :: t => some (expect "rue".toList t)
  | 'f' :: t => some (expect "alse".toList t)
  | '-' :: t => some (skipNumber t)
  | '\x22' :: t => some (skipString t)
  | c :: t => if c.isDigit then some (skipNumber (c :: t)) else none
  | [] => none

/-- The bracket that closes an array or an object. -/
def closer (opener : Char) : Char :=
  if opener = '[' then ']' else '\x7d'

/-- Pass over what must precede a value inside these brackets: a key and a colon in
an object, nothing in an array. -/
def skipKey (opener : Char) (t : Text) : Except Fault Text :=
  if opener = '[' then .ok t
  else match skipBlanks t with
    | [] => .error .truncated
    | '\x22' :: t => skipString t >>= colon
    | _ => .error .malformed

mutual

/-- Pass over a value inside the given open brackets, innermost first, and then over
everything up to the last closing one. -/
def skipInside : Nat → List Char → Text → Except Fault Text
  | 0, _, _ => .error .truncated
  | bound + 1, stack, t =>
    match skipBlanks t with
    | [] => .error .truncated
    | c :: t =>
      if c = '[' || c = '\x7b' then
        match skipBlanks t with
        | [] => .error .truncated
        | d :: u =>
          if d = closer c then skipBehind bound stack u
          else do skipInside bound (c :: stack) (← skipKey c (d :: u))
      else match skipScalar? (c :: t) with
        | some read => do skipBehind bound stack (← read)
        | none => .error .malformed

/-- Pass over everything behind a value up to the last closing bracket. -/
def skipBehind : Nat → List Char → Text → Except Fault Text
  | _, [], t => .ok t
  | 0, _, _ => .error .truncated
  | bound + 1, opener :: stack, t =>
    match skipBlanks t with
    | [] => .error .truncated
    | c :: t =>
      if c = ',' then do skipInside bound (opener :: stack) (← skipKey opener t)
      else if c = closer opener then skipBehind bound stack t
      else .error .malformed

end

def skipValue (t : Text) : Except Fault Text :=
  skipInside (2 * t.length + 2) [] t

/-- The fault of a value that is not of the shape asked for. A faulty scalar shows
first. -/
def mismatch (t : Text) : Fault :=
  let read : Except Fault Text := match t with
    | 'n' :: t => expect "ull".toList t
    | 't' :: t => expect "rue".toList t
    | 'f' :: t => expect "alse".toList t
    | '-' :: t => number t
    | '\x22' :: t => (string t).map Prod.snd
    | '[' :: t => .ok t
    | '\x7b' :: t => .ok t
    | c :: t => if c.isDigit then number (c :: t) else .error .malformed
    | [] => .error .truncated
  match read with
  | .ok _ => .mismatched
  | .error fault => fault

def text (t : Text) : Except Fault (Text × Text) :=
  match skipBlanks t with
  | [] => .error .truncated
  | '\x22' :: t => string t
  | t => .error (mismatch t)

/-- A value as far as it can be a list of texts. -/
inductive Value where
  | text (content : Text)
  | list (items : List Value)
  | other

def Value.text? : Value → Option Text
  | .text content => some content
  | _ => none

mutual

def value : Nat → Nat → Text → Except Fault (Value × Text)
  | 0, _, _ => .error .truncated
  | bound + 1, depth, t =>
    match skipBlanks t with
    | [] => .error .truncated
    | '\x22' :: t => (string t).map fun (s, t) => (.text s, t)
    | '[' :: t =>
      if depth ≤ 1 then .error .malformed
      else (elements bound (depth - 1) true t).map fun (items, t) => (.list items, t)
    | '\x7b' :: t =>
      if depth ≤ 1 then .error .malformed
      else (members bound (depth - 1) true t).map fun t => (.other, t)
    | 'n' :: t => (expect "ull".toList t).map fun t => (.other, t)
    | 't' :: t => (expect "rue".toList t).map fun t => (.other, t)
    | 'f' :: t => (expect "alse".toList t).map fun t => (.other, t)
    | '-' :: t => (number t).map fun t => (.other, t)
    | c :: t =>
      if c.isDigit then (number (c :: t)).map fun t => (.other, t) else .error .malformed

/-- The elements of an array, behind its opening bracket. -/
def elements : Nat → Nat → Bool → Text → Except Fault (List Value × Text)
  | 0, _, _, _ => .error .truncated
  | bound + 1, depth, first, t => do
    let (more, t) ← nextElement first t
    if more then
      let (item, t) ← value bound depth t
      let (items, t) ← elements bound depth false t
      return (item :: items, t)
    else return ([], ← endArray t)

/-- The members of an object, behind its opening brace. -/
def members : Nat → Nat → Bool → Text → Except Fault Text
  | 0, _, _, _ => .error .truncated
  | bound + 1, depth, first, t => do
    let (key?, t) ← nextKey first t
    match key? with
    | some _ =>
      let (_, t) ← value bound depth (← colon t)
      members bound depth false t
    | none => return t

end

end SuiteIndex.Json
