/-! # Positions, spans and locations

Lines and columns are counted from zero. A span is closed at both ends: the
position right after its last character still belongs to it. A location is a
span of a source text, or the absence of one for declarations that have no text.
-/

namespace SuiteIndex

structure Position where
  line : Nat
  column : Nat
deriving DecidableEq, Repr, Inhabited

namespace Position

def notAfter (p q : Position) : Bool :=
  p.line < q.line || (p.line == q.line && p.column ≤ q.column)

def earlier (p q : Position) : Position :=
  if p.notAfter q then p else q

def later (p q : Position) : Position :=
  if p.notAfter q then q else p

end Position

structure Span where
  start : Position
  stop : Position
deriving DecidableEq, Repr, Inhabited

namespace Span

def onLine (line first last : Nat) : Span :=
  ⟨⟨line, first⟩, ⟨line, last⟩⟩

def point (p : Position) : Span :=
  ⟨p, p⟩

def cover (a b : Span) : Span :=
  ⟨a.start.earlier b.start, a.stop.later b.stop⟩

def contains (a : Span) (p : Position) : Bool :=
  a.start.line ≤ p.line && p.line ≤ a.stop.line &&
    !(p.line == a.start.line && p.column < a.start.column) &&
    !(p.line == a.stop.line && a.stop.column < p.column)

def encloses (a b : Span) : Bool :=
  a.start.notAfter b.start && b.stop.notAfter a.stop

end Span

/-- Where a piece of a suite comes from. Declarations of a library have no
source text and are synthetic. -/
inductive Location where
  | parsed (span : Span)
  | synthetic
deriving DecidableEq, Repr, Inhabited

namespace Location

def span? : Location → Option Span
  | parsed span => some span
  | synthetic => none

def isSynthetic : Location → Bool
  | parsed _ => false
  | synthetic => true

def contains : Location → Position → Bool
  | parsed span, p => span.contains p
  | synthetic, _ => false

/-- Cover both locations; a synthetic one adds nothing. -/
def cover : Location → Location → Location
  | parsed a, parsed b => parsed (a.cover b)
  | parsed a, synthetic => parsed a
  | synthetic, b => b

/-- Whether the first location encloses the second; unknown without spans. -/
def encloses? : Location → Location → Option Bool
  | parsed a, parsed b => some (a.encloses b)
  | _, _ => none

end Location

end SuiteIndex
