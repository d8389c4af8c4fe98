import Caret.Text.Newline

-- The lines of a text as a height-balanced search tree. A node stores how many characters and lines
-- lie to its left, so that a line can be found by number or by offset along one path. It is kept in
-- a slot of its own and knows the slot of the node above it. The lines themselves are the in-order
-- list `toList`.
namespace Caret

-- Which of two neighbouring subtrees is higher, by one level.
inductive Balance
  | left
  | even
  | right
deriving DecidableEq

def Balance.toInt : Balance → Int
  | left  => -1
  | even  => 0
  | right => 1

-- A line and the slot that it is kept in.
structure Cell where
  slot : Nat
  line : Line
deriving DecidableEq

namespace Cell

-- The number of characters of the line.
def length (c : Cell) : Nat :=
  c.line.length

-- The same slot with a longer or shorter line.
def withLength (c : Cell) (length : Nat) : Cell :=
  { c with line := { c.line with length } }

-- The same slot with another newline.
def withNewline (c : Cell) (newline : Option Newline) : Cell :=
  { c with line := { c.line with newline } }

end Cell

-- `parent` is the slot of the node above, and `chars` and `lines` count what the left subtree
-- holds.
inductive LineTree
  | nil
  | node (parent : Option Nat) (left : LineTree) (chars lines : Nat) (cell : Cell)
    (balance : Balance) (right : LineTree)
deriving DecidableEq

-- A line in its slot, with its number and the offset of its first character.
structure Located extends Cell where
  number : Nat
  start  : Nat
deriving DecidableEq

-- The offset after the line.
def Located.stop (l : Located) : Nat :=
  l.start + l.line.length

-- The same line with `lines` more lines and `chars` more characters before it.
def Located.shift (l : Located) (lines chars : Nat) : Located :=
  { l with number := lines + l.number, start := chars + l.start }

namespace LineTree

def cells : LineTree → List Cell
  | nil                   => []
  | node _ l _ _ cell _ r => l.cells ++ cell :: r.cells

def toList (t : LineTree) : List Line :=
  t.cells.map Cell.line

def isNil : LineTree → Bool
  | nil => true
  | _   => false

-- The same tree below another node.
def adopt (parent : Option Nat) : LineTree → LineTree
  | nil                                 => nil
  | node _ l chars lines cell balance r => node parent l chars lines cell balance r

def height : LineTree → Nat
  | nil                => 0
  | node _ l _ _ _ _ r => max l.height r.height + 1

-- The number of lines, read off the right spine.
def lineCount : LineTree → Nat
  | nil                    => 0
  | node _ _ _ lines _ _ r => lines + 1 + r.lineCount

-- The number of characters, read off the right spine.
def charCount : LineTree → Nat
  | nil                       => 0
  | node _ _ chars _ cell _ r => chars + cell.length + r.charCount

def line? : LineTree → (number : Nat) → Option Located
  | nil, _                           => none
  | node _ l chars lines cell _ r, n =>
    if n = lines then some ⟨cell, lines, chars⟩
    else if n < lines then l.line? n
    else (r.line? (n - (lines + 1))).map (·.shift (lines + 1) (chars + cell.length))

-- Builds a tree with the middle line at the root. The lines are in the slots from `first` on.
def ofList (parent : Option Nat) (first : Nat) (lines : List Line) : LineTree :=
  match h : lines.drop (lines.length / 2) with
  | []           => nil
  | line :: rest =>
    let before := lines.take (lines.length / 2)
    let slot   := first + before.length
    let left   := ofList slot first before
    let right  := ofList slot (slot + 1) rest
    let balance : Balance := if right.height < left.height then .left else .even
    node parent left (Line.totalLength before) before.length ⟨slot, line⟩ balance right
termination_by lines.length
decreasing_by
  all_goals
    have := congrArg List.length h
    simp [List.length_take] at this ⊢
    omega

end LineTree
end Caret
