import Caret.Line.Index

-- A check of what a line index promises: its links lead back and forth, its tree is balanced, every
-- counter is right, the last line alone has no newline, and every slot is in use or free.
namespace Caret

-- A promise that the node in a slot breaks.
structure Violation where
  node   : Nat
  reason : String
deriving DecidableEq

def Violation.message (v : Violation) : String :=
  "Line index invariant violated at node " ++ toString v.node ++ ": " ++ v.reason

namespace LineTree

-- What a subtree holds, counted afresh.
structure Extent where
  height : Nat
  chars  : Nat
  lines  : Nat

-- Whether the root is linked to the node above it.
def checkLink (up : Nat) : LineTree → Except Violation Unit
  | nil                        => .ok ()
  | node parent _ _ _ cell _ _ =>
    if parent = up then .ok () else .error ⟨cell.slot, "broken parent link"⟩

-- Compares the links and counters of a tree with what it holds.
def measure : LineTree → Except Violation Extent
  | nil                                 => .ok ⟨0, 0, 0⟩
  | node _ l chars lines cell balance r => do
    l.checkLink cell.slot
    let left  ← l.measure
    r.checkLink cell.slot
    let right ← r.measure
    let stored := balance.toInt
    let actual : Int := right.height - left.height
    let (leftChars, leftLines) := (left.chars, left.lines)
    if stored ≠ actual then
      .error ⟨cell.slot, s!"stored balance {stored} but heights give {actual}"⟩
    else if chars ≠ leftChars then
      .error ⟨cell.slot, s!"stored offset {chars} but left subtree has {leftChars}"⟩
    else if lines ≠ leftLines then
      .error ⟨cell.slot, s!"stored line {lines} but left subtree has {leftLines}"⟩
    else
      .ok {
        height := max left.height right.height + 1
        chars  := left.chars + cell.length + right.chars
        lines  := left.lines + 1 + right.lines
      }

end LineTree

-- Checks how lines end that are the last ones of a text.
def Cell.checkEnds : List Cell → Except Violation Unit
  | []      => .ok ()
  | c :: cs =>
    match c.line.newline with
    | none         => checkEnds cs
    | some newline =>
      if c.length < newline.length then .error ⟨c.slot, "line shorter than its delimiter"⟩
      else if cs = [] then .error ⟨c.slot, "last line has a delimiter"⟩
      else checkEnds cs

-- The number of lines without a newline.
def Cell.undelimited (cs : List Cell) : Nat :=
  cs.countP (·.line.newline.isNone)

-- Checks an index whose root is in the given slot.
def LineIndex.checkFrom (ix : LineIndex) (root : Nat) : Except Violation Unit := do
  let _ ← ix.tree.measure
  let cells := ix.tree.cells
  Cell.checkEnds cells
  let undelimited := Cell.undelimited cells
  if undelimited ≠ 1 then
    .error ⟨root, s!"{undelimited} lines without delimiter"⟩
  else if cells.length + ix.slots.free.length ≠ ix.slots.size then
    .error ⟨root, "arena slots leaked"⟩
  else .ok ()

def LineIndex.check (ix : LineIndex) : Except Violation Unit :=
  match ix.tree with
  | .nil                        => .error ⟨0, "0 lines without delimiter"⟩
  | .node parent _ _ _ cell _ _ =>
    if parent.isSome then .error ⟨cell.slot, "root has a parent"⟩
    else ix.checkFrom cell.slot

end Caret
