import SuiteIndex.Table.Cell

/-! # Reading rows

A line is cut into cells at tabs, at runs of two or more spaces, and at pipes with
blanks around them. A comment runs from an unescaped hash sign to the end of the
line. A line whose first character is a pipe is in pipe form: the pipes at its
ends belong to no cell. Columns always refer to the whole line.
-/

namespace SuiteIndex

namespace Segment

/-- The part of a line before its comment; `escaped` tells whether a backslash
stands right in front. -/
def uncommented (escaped : Bool) : Text → Text
  | [] => []
  | c :: t =>
    if c = '#' && !escaped then [] else c :: uncommented (c = '\\') t

def isGap (c : Char) : Bool :=
  c = ' ' || c = '\t'

def opens : Text → Bool
  | '\t' :: _ => true
  | ' ' :: ' ' :: _ => true
  | ' ' :: '|' :: ' ' :: _ => true
  | _ => false

/-- The text of the cell that starts here, up to the next separator. -/
def leading : Text → Text
  | [] => []
  | c :: t => if opens (c :: t) then [] else c :: leading t

/-- Whether a pipe stands here with a gap or the end of the line behind it. -/
def pipeFollows : Text → Bool
  | ['|'] => true
  | '|' :: c :: _ => isGap c
  | _ => false

/-- The width of the separator a text starts with. It takes in a pipe if the line is in
pipe form or a single space stands before the pipe. -/
def width (pipeForm : Bool) : Text → Nat
  | [] => 0
  | c :: t =>
    let gap := (t.takeWhile isGap).length
    let rest := t.drop gap
    if pipeFollows rest && (pipeForm || (c = ' ' && gap = 0)) then
      1 + gap + 1 + ((rest.drop 1).takeWhile isGap).length
    else 1 + gap

theorem length_drop_width (pipeForm : Bool) (c : Char) (t : Text) :
    ((c :: t).drop (width pipeForm (c :: t))).length < (c :: t).length := by
  simp only [width, List.length_drop, List.length_cons]
  split <;> omega

/-- The cell made of a stretch of a line; white space around it is not part of it. -/
def cell (line column : Nat) (stretch : Text) : Cell :=
  let content := Text.trim stretch
  if content.isEmpty then ⟨[], .onLine line column column⟩
  else
    let first := column + Text.indentation stretch
    ⟨content, .onLine line first (first + content.length)⟩

/-- The cells of a stretch of a line that starts at `column`: a cell, the separator
behind it, and the cells of the rest. -/
def cells (pipeForm : Bool) (line column : Nat) : Text → List Cell
  | [] => []
  | c :: t =>
    let first := leading (c :: t)
    let rest := (c :: t).drop first.length
    cell line column first ::
      cells pipeForm line (column + first.length + width pipeForm rest)
        (rest.drop (width pipeForm rest))
termination_by t => t.length
decreasing_by
  generalize h : (c :: t).drop (leading (c :: t)).length = rest
  cases rest with
  | nil => simp
  | cons d u =>
    have := length_drop_width pipeForm d u
    have := congrArg List.length h
    simp only [List.length_drop, List.length_cons] at *
    omega

/-- A line in pipe form without the pipe that closes it, if there is one. -/
def dropClosingPipe (t : Text) : Text :=
  match t.reverse.dropWhile Text.isBlank with
  | ['|'] => []
  | '|' :: c :: rest => if Text.isBlank c then (c :: rest).reverse else t
  | _ => t

def line (number : Nat) (t : Text) : List Cell :=
  let body := uncommented false t
  match body.dropWhile Text.isBlank with
  | '|' :: rest =>
    cells true number (Text.indentation body + 1) (dropClosingPipe rest)
  | _ => cells false number 0 body

end Segment

def Row.read (number : Nat) (line : Text) : Row :=
  .ofCells number (Segment.line number line)

def Row.readFrom (number : Nat) : List Text → List Row
  | [] => []
  | line :: rest => Row.read number line :: readFrom (number + 1) rest

def Table.read (text : Text) : List Table :=
  Table.ofRows (Row.readFrom 0 (Text.lines text))

end SuiteIndex
