import Caret.Line.Counter
import Caret.Line.Slots
import Caret.Text.Position

-- An index of the lines of a text: how many there are, where each starts and how it ends. Questions
-- are answered by the line tree; `lines` lists everything.
namespace Caret

inductive LineError
  | offsetOutOfBounds (offset length : Nat)
  | lineOutOfBounds (line lineCount : Nat)
deriving DecidableEq

def LineError.message : LineError → String
  | offsetOutOfBounds offset length => s!"Offset {offset} out of bounds (document length {length})"
  | lineOutOfBounds line lineCount  => s!"Line {line} out of bounds (line count {lineCount})"

-- The part of a text that a line covers, without its newline.
structure LineRegion where
  offset : Nat
  length : Nat
deriving DecidableEq

def LineRegion.stop (r : LineRegion) : Nat :=
  r.offset + r.length

structure LineInfo where
  offset  : Nat
  length  : Nat
  newline : Option Newline
deriving DecidableEq

namespace LineInfo

def pureLength (l : LineInfo) : Nat :=
  Line.pureLength ⟨l.length, l.newline⟩

def render (l : LineInfo) : String :=
  "LineInfo \x7b offset: " ++ toString l.offset ++ ", length: " ++ toString l.length ++
    ", delimiter: " ++ newlineName ++ " \x7d"
where
  newlineName : String :=
    match l.newline with
    | none       => "None"
    | some .cr   => "Some(Cr)"
    | some .lf   => "Some(Lf)"
    | some .crlf => "Some(CrLf)"

end LineInfo

-- Lines with running offsets, from a first offset on.
def Line.withOffsets (offset : Nat) : List Line → List LineInfo
  | []      => []
  | l :: ls => ⟨offset, l.length, l.newline⟩ :: withOffsets (offset + l.length) ls

def Located.region (l : Located) : LineRegion :=
  ⟨l.start, l.line.pureLength⟩

namespace LineTree

open Counters

section Lookup

variable {m : Type → Type} [Monad m] [Counters m]

-- Walks down to the line that an offset falls into. `rest` is what the lines before the tree have
-- left of the offset, and `number` is their number.
def seekM (offset : Nat) : LineTree → (rest number : Nat) → m Located
  | nil, _, _                                   => missing
  | node _ l chars lines cell _ r, rest, number =>
    if rest < chars then l.seekM offset rest number
    else do
      let rest ← sub rest chars
      if rest < cell.length ∨ rest = cell.length ∧ r.isNil then do
        let start ← sub offset rest
        return ⟨cell, number + lines, start⟩
      else do
        let rest ← sub rest cell.length
        r.seekM offset rest (number + lines + 1)

-- The line that an offset falls into. An offset between two lines belongs to the second, and the
-- end of the text to the last line.
def lineAtM (t : LineTree) (offset : Nat) : m Located :=
  t.seekM offset offset 0

end Lookup

def lineAt? (t : LineTree) (offset : Nat) : Option Located :=
  t.lineAtM offset

end LineTree

structure LineIndex where
  tree  : LineTree
  slots : Slots
deriving DecidableEq

namespace LineIndex

def ofLines (lines : List Line) : LineIndex where
  tree  := .ofList none 0 lines
  slots := .used lines.length

def ofText (text : String) : LineIndex :=
  ofLines <| splitLines text.toList

-- The index of the empty text.
def empty : LineIndex :=
  ofLines [⟨0, none⟩]

variable (ix : LineIndex)

def lineCount : Nat :=
  ix.tree.lineCount

-- The number of characters of the text.
def length : Nat :=
  ix.tree.charCount

def isEmpty : Bool :=
  ix.length == 0

def lines : List LineInfo :=
  Line.withOffsets 0 ix.tree.toList

def locateLine (line : Nat) : Except LineError Located :=
  match ix.tree.line? line with
  | some l => .ok l
  | none   => .error (.lineOutOfBounds line ix.lineCount)

def locateOffset (offset : Nat) : Except LineError Located :=
  match ix.tree.lineAt? offset with
  | some l => .ok l
  | none   => .error (.offsetOutOfBounds offset ix.length)

def lineOffset (line : Nat) : Except LineError Nat :=
  (ix.locateLine line).map (·.start)

def lineLength (line : Nat) : Except LineError Nat :=
  (ix.locateLine line).map (·.line.length)

def lineNewline (line : Nat) : Except LineError (Option Newline) :=
  (ix.locateLine line).map (·.line.newline)

def lineOfOffset (offset : Nat) : Except LineError Nat :=
  (ix.locateOffset offset).map (·.number)

def regionOfOffset (offset : Nat) : Except LineError LineRegion :=
  (ix.locateOffset offset).map (·.region)

-- The region of a line. One line past a last line that is not empty stands for the end.
def region (line : Nat) : Except LineError LineRegion :=
  match ix.tree.line? line with
  | some l => .ok l.region
  | none   =>
    match line with
    | 0        => .error (.lineOutOfBounds line ix.lineCount)
    | last + 1 =>
      match ix.tree.line? last with
      | none   => .error (.lineOutOfBounds line ix.lineCount)
      | some l =>
        if line = ix.lineCount ∧ 0 < l.line.length
        then .ok ⟨l.stop, 0⟩
        else .error (.lineOutOfBounds line ix.lineCount)

-- How many lines `length` characters from an offset on touch; one, unchecked, for no characters.
def lineCountInRange (offset length : Nat) : Except LineError Nat :=
  if length = 0 then .ok 1 else do
    let first ← ix.lineOfOffset offset
    let last  ← ix.lineOfOffset (offset + length)
    return last - first + 1

-- The offset of a position. The character may lie beyond the end of its line.
def offsetOf (p : Position) : Except LineError Nat := do
  let r ← ix.region p.line
  if r.offset + p.character ≤ maxOffset
  then .ok (r.offset + p.character)
  else .error (.offsetOutOfBounds maxOffset ix.length)

-- All lines between square brackets.
def render : String :=
  "[" ++ ", ".intercalate (ix.lines.map LineInfo.render) ++ "]"

end LineIndex
end Caret
