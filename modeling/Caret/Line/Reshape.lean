import Caret.Line.Rotate

-- The elementary changes of a line tree, each addressed by a line number: a line gets longer or
-- shorter, gets another newline, appears or disappears. An operation gives up where the line does
-- not exist.
namespace Caret.LineTree

open Counters

def setNewline? : LineTree → (number : Nat) → Option Newline → Option LineTree
  | nil, _, _                                            => none
  | node parent l chars lines cell balance r, n, newline =>
    if n < lines then do
      let l ← l.setNewline? n newline
      some (node parent l chars lines cell balance r)
    else if n = lines then
      some (node parent l chars lines (cell.withNewline newline) balance r)
    else do
      let r ← r.setNewline? (n - (lines + 1)) newline
      some (node parent l chars lines cell balance r)

variable {m : Type → Type} [Monad m] [Counters m]

-- Adds `delta` to the length of a line.
def resizeM : LineTree → (number : Nat) → (delta : Int) → m LineTree
  | nil, _, _                                          => missing
  | node parent l chars lines cell balance r, n, delta =>
    if n < lines then do
      let l     ← l.resizeM n delta
      let chars ← shift chars delta
      return node parent l chars lines cell balance r
    else if n = lines then do
      let length ← shift cell.length delta
      return node parent l chars lines (cell.withLength length) balance r
    else do
      let r ← r.resizeM (n - (lines + 1)) delta
      return node parent l chars lines cell balance r

-- Inserts a line that gets the given number into a tree below `up`. The flag tells whether the tree
-- has become higher.
def insertM (up : Option Nat) : LineTree → (number : Nat) → Cell → m (LineTree × Bool)
  | nil, 0, new                                      => return (node up nil 0 0 new .even nil, true)
  | nil, _ + 1, _                                    => missing
  | node parent l chars lines cell balance r, n, new =>
    if n ≤ lines then do
      let (l, higher) ← insertM cell.slot l n new
      let chars ← shift chars new.length
      let lines ← shift lines 1
      if higher
      then raisedLeftM parent l chars lines cell r balance
      else return (node parent l chars lines cell balance r, false)
    else do
      let (r, higher) ← insertM cell.slot r (n - (lines + 1)) new
      if higher
      then raisedRightM parent l chars lines cell r balance
      else return (node parent l chars lines cell balance r, false)

-- Takes the first line out. The flag tells whether the tree has become lower.
def popFirstM : LineTree → m (Cell × LineTree × Bool)
  | nil                                      => missing
  | node parent nil _ _ cell _ r             => return (cell, r.adopt parent, true)
  | node parent l chars lines cell balance r => do
    let (first, l, lower) ← l.popFirstM
    let chars ← shift chars (-first.length)
    let lines ← shift lines (-1)
    if lower then do
      let (t, lower) ← loweredLeftM parent l chars lines cell r balance
      return (first, t, lower)
    else return (first, node parent l chars lines cell balance r, false)

-- Takes the root out, whose line is empty. Between two subtrees the next line takes its place.
def removeRootM (parent : Option Nat) (left : LineTree) (chars lines : Nat) (balance : Balance)
    (right : LineTree) : m (LineTree × Bool) :=
  match left, right with
  | nil, _ => return (right.adopt parent, true)
  | _, nil => return (left.adopt parent, true)
  | _, _   => do
    let (next, right, lower) ← right.popFirstM
    let left  := left.adopt next.slot
    let right := right.adopt next.slot
    if lower
    then loweredRightM parent left chars lines next right balance
    else return (node parent left chars lines next balance right, false)

-- Removes a line that has been emptied. The flag tells whether the tree has become lower.
def removeM : LineTree → (number : Nat) → m (LineTree × Bool)
  | nil, _                                      => missing
  | node parent l chars lines cell balance r, n =>
    if n < lines then do
      let (l, lower) ← l.removeM n
      let lines ← shift lines (-1)
      if lower
      then loweredLeftM parent l chars lines cell r balance
      else return (node parent l chars lines cell balance r, false)
    else if n = lines then removeRootM parent l chars lines balance r
    else do
      let (r, lower) ← r.removeM (n - (lines + 1))
      if lower
      then loweredRightM parent l chars lines cell r balance
      else return (node parent l chars lines cell balance r, false)

end Caret.LineTree
