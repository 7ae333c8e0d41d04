import SuiteIndex.Text
import SuiteIndex.Text.CaseTable

/-! # Lower-casing

Names are compared without regard to case, by the full lower-case mapping of
Unicode. It goes character by character, except that a capital sigma becomes the
final form at the end of a word, and the dotted capital I becomes two characters.
-/

namespace SuiteIndex.Text
open CaseTable

def lowerChar (c : Char) : Text :=
  let n := c.toNat
  if n < 128 then [c.toLower]
  else if n = 0x130 then ['i', Char.ofNat 0x307]
  else match lowerRuns.find? (·.covers n) with
    | some run => [Char.ofNat (run.lowered n)]
    | none => [c]

/-- Whether a cased letter comes first once ignorable characters are skipped. -/
def meetsCased (t : Text) : Bool :=
  match t.dropWhile (within ignorableRanges ·.toNat) with
  | c :: _ => within casedRanges c.toNat
  | [] => false

def capitalSigma : Char := Char.ofNat 0x3A3
def smallSigma : Char := Char.ofNat 0x3C3
def finalSigma : Char := Char.ofNat 0x3C2

/-- Lower a text; `seen` holds the characters before it, nearest first. -/
def lowerAfter (seen : Text) : Text → Text
  | [] => []
  | c :: t =>
    (if c = capitalSigma then
      [if meetsCased seen && !meetsCased t then finalSigma else smallSigma]
    else lowerChar c) ++ lowerAfter (c :: seen) t

def lower (t : Text) : Text :=
  lowerAfter [] t

end SuiteIndex.Text
