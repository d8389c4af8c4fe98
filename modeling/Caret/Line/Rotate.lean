import Caret.Line.Counter

-- Rotations of a line tree. Each takes the parts of a node whose subtrees differ by two levels and
-- puts them together as a balanced tree with the same lines, below the same parent. The flag tells
-- whether the result is higher than the higher of the two subtrees.
namespace Caret

-- A double rotation gives the subtrees of the middle node to the left and to the right one of the
-- nodes below it. These are their balances.
def Balance.spread : Balance → Balance × Balance
  | left  => (even, right)
  | even  => (even, even)
  | right => (left, even)

namespace LineTree

open Counters

variable {m : Type → Type} [Monad m] [Counters m]

-- The left subtree is two levels higher than the right one.
def rotateRightM (parent : Option Nat) (left : LineTree) (chars lines : Nat) (cell : Cell)
    (right : LineTree) : m (LineTree × Bool) :=
  match left with
  | node _ a ca la x .left b => do
    let chars ← sub chars (ca + x.length)
    let lines ← sub lines (la + 1)
    let inner := node x.slot (b.adopt cell.slot) chars lines cell .even right
    return (node parent a ca la x .even inner, false)
  | node _ a ca la x .even b => do
    let chars ← sub chars (ca + x.length)
    let lines ← sub lines (la + 1)
    let inner := node x.slot (b.adopt cell.slot) chars lines cell .left right
    return (node parent a ca la x .right inner, true)
  | node _ a ca la x .right (node _ b cb lb y balance c) => do
    let cy ← add (ca + x.length) cb
    let ly ← add (la + 1) lb
    let chars ← sub chars (cy + y.length)
    let lines ← sub lines (ly + 1)
    let inner := node y.slot a ca la x balance.spread.fst (b.adopt x.slot)
    let outer := node y.slot (c.adopt cell.slot) chars lines cell balance.spread.snd right
    return (node parent inner cy ly y .even outer, false)
  | _ => missing

-- The right subtree is two levels higher than the left one.
def rotateLeftM (parent : Option Nat) (left : LineTree) (chars lines : Nat) (cell : Cell)
    (right : LineTree) : m (LineTree × Bool) :=
  match right with
  | node _ a ca la x .right b => do
    let cx ← add (chars + cell.length) ca
    let lx ← add (lines + 1) la
    let inner := node x.slot left chars lines cell .even (a.adopt cell.slot)
    return (node parent inner cx lx x .even b, false)
  | node _ a ca la x .even b => do
    let cx ← add (chars + cell.length) ca
    let lx ← add (lines + 1) la
    let inner := node x.slot left chars lines cell .right (a.adopt cell.slot)
    return (node parent inner cx lx x .left b, true)
  | node _ (node _ a ca la y balance b) cx lx x .left c => do
    let cx ← sub cx (ca + y.length)
    let lx ← sub lx (la + 1)
    let cy ← add (chars + cell.length) ca
    let ly ← add (lines + 1) la
    let inner := node y.slot left chars lines cell balance.spread.fst (a.adopt cell.slot)
    let outer := node y.slot (b.adopt x.slot) cx lx x balance.spread.snd c
    return (node parent inner cy ly y .even outer, false)
  | _ => missing

-- The flag of the next two functions tells whether the node has become higher.

-- A node whose left subtree has become one level higher.
def raisedLeftM (parent : Option Nat) (left : LineTree) (chars lines : Nat) (cell : Cell)
    (right : LineTree) : Balance → m (LineTree × Bool)
  | .right => return (node parent left chars lines cell .even right, false)
  | .even  => return (node parent left chars lines cell .left right, true)
  | .left  => rotateRightM parent left chars lines cell right

-- A node whose right subtree has become one level higher.
def raisedRightM (parent : Option Nat) (left : LineTree) (chars lines : Nat) (cell : Cell)
    (right : LineTree) : Balance → m (LineTree × Bool)
  | .left  => return (node parent left chars lines cell .even right, false)
  | .even  => return (node parent left chars lines cell .right right, true)
  | .right => rotateLeftM parent left chars lines cell right

-- The flag of the next two functions tells whether the node has become lower.

-- A node whose left subtree has become one level lower.
def loweredLeftM (parent : Option Nat) (left : LineTree) (chars lines : Nat) (cell : Cell)
    (right : LineTree) : Balance → m (LineTree × Bool)
  | .left  => return (node parent left chars lines cell .even right, true)
  | .even  => return (node parent left chars lines cell .right right, false)
  | .right => do
    let (t, higher) ← rotateLeftM parent left chars lines cell right
    return (t, !higher)

-- A node whose right subtree has become one level lower.
def loweredRightM (parent : Option Nat) (left : LineTree) (chars lines : Nat) (cell : Cell)
    (right : LineTree) : Balance → m (LineTree × Bool)
  | .right => return (node parent left chars lines cell .even right, true)
  | .even  => return (node parent left chars lines cell .left right, false)
  | .left  => do
    let (t, higher) ← rotateRightM parent left chars lines cell right
    return (t, !higher)

end LineTree
end Caret
