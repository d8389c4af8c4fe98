import Caret.Line.Index
import Caret.Line.Reshape

-- Edits of an indexed text. Only the lines that an edit touches change, and the new lines come from
-- the inserted text alone. A carriage return before the edit and a line feed after it are taken
-- into the edit, since they may pair up with its ends or lose their partner.
namespace Caret

-- A replacement of the characters from `start` up to `stop`.
structure Splice where
  start : Nat
  stop  : Nat
  text  : List Char

-- The character at an offset, if it belongs to a newline.
def LineTree.newlineCharAtM {m : Type → Type} [Monad m] [Counters m] (t : LineTree)
    (offset : Nat) : m (Option Char) := do
  match ← Counters.attempt (t.lineAtM offset) with
  | none   => return none
  | some l =>
    match l.line.newline with
    | none         => return none
    | some newline => do
      let within ← Counters.sub offset l.start
      let body   ← Counters.sub l.line.length newline.length
      return if body ≤ within then newline.chars[within - body]? else none

namespace LineIndex

open Counters

def setNewline? (ix : LineIndex) (number : Nat) (newline : Option Newline) : Option LineIndex := do
  let tree ← ix.tree.setNewline? number newline
  some { ix with tree }

section Edit

variable {m : Type → Type} [Monad m] [Counters m] (ix : LineIndex)

-- Adds `delta` to the length of a line; a line that has a newline disappears when it is empty.
def adjustM (number : Nat) (delta : Int) : m LineIndex := do
  let tree ← ix.tree.resizeM number delta
  let here ← ofOption (tree.line? number)
  if here.line.length = 0 ∧ here.line.newline.isSome then do
    removing tree number
    let (tree, _) ← tree.removeM number
    return ⟨tree, ix.slots.release here.slot⟩
  else return { ix with tree }

def insertLineM (number : Nat) (line : Line) : m LineIndex := do
  let (slot, slots) := ix.slots.take
  let (tree, _) ← ix.tree.insertM none number ⟨slot, line⟩
  return ⟨tree, slots⟩

-- Inserts the lines that end in the text after `consumed` characters of it, the first of which gets
-- the given number. What is behind the last newline is not inserted: the result tells the number of
-- its line and where it begins.
def insertLinesM (ix : LineIndex) (text : List Char) (number consumed : Nat) :
    m (LineIndex × Nat × Nat) :=
  match h : Newline.next? text consumed with
  | none       => return (ix, number, consumed)
  | some found => do
    let length ← sub found.stop consumed
    let ix ← ix.insertLineM number ⟨length, some found.newline⟩
    insertLinesM ix text (number + 1) found.stop
termination_by text.length - consumed
decreasing_by
  have ⟨hlt, hle⟩ := Newline.next?_bounds h
  omega

-- Replaces `length` of the last `tail` characters of a line; `length` does not exceed `tail`.
def replaceWithinM (here : Located) (tail length : Nat) (text : List Char) : m LineIndex :=
  match Newline.next? text 0 with
  | none       => ix.adjustM here.number (text.length - length)
  | some found => do
    let extra ← sub tail length
    let ix ← ix.adjustM here.number (found.stop - tail)
    let ix ← ofOption (ix.setNewline? here.number (some found.newline))
    let (ix, number, consumed) ← ix.insertLinesM text (here.number + 1) found.stop
    let last ← sub (extra + text.length) consumed
    ix.insertLineM number ⟨last, here.line.newline⟩

-- Empties `count` lines from a number on and takes their lengths off `length`.
def removeLinesM (ix : LineIndex) (number : Nat) : (count length : Nat) → m (LineIndex × Nat)
  | 0, length         => return (ix, length)
  | count + 1, length => do
    let here ← ofOption (ix.tree.line? number)
    let length ← sub length here.line.length
    let ix ← ix.adjustM number (-here.line.length)
    removeLinesM ix number count length

-- Merges a line into the next one, whose length then changes by `delta`.
def joinM (number : Nat) (delta : Int) : m LineIndex := do
  let here ← ofOption (ix.tree.line? number)
  let ix ← ix.adjustM number (-here.line.length)
  ix.adjustM number (here.line.length + delta)

-- Replaces `length` characters that start in the last `tail` characters of line `first` and end in
-- the later line `last`. The lines between disappear.
def replaceAcrossM (first last tail length : Nat) (text : List Char) : m LineIndex := do
  let (ix, length) ← ix.removeLinesM (first + 1) (last - first - 1) length
  match Newline.next? text 0 with
  | none       => ix.joinM first (text.length - length)
  | some found => do
    let ix ← ix.adjustM first (found.stop - tail)
    let ix ← ofOption (ix.setNewline? first (some found.newline))
    let length ← sub length tail
    let (ix, number, consumed) ← ix.insertLinesM text (first + 1) found.stop
    ix.adjustM number (text.length - consumed - length)

-- The line that an offset falls into, which does not lie before line `first`.
def lineFromM (first : Located) (offset : Nat) : m Located :=
  if offset < first.stop then return first else ix.tree.lineAtM offset

-- Replaces `length` characters from an offset on. Neither end lies inside a newline.
def replaceCharsM (offset length : Nat) (text : List Char) : m LineIndex := do
  let first ← ix.tree.lineAtM offset
  let last  ← ix.lineFromM first (offset + length)
  let tail  ← sub first.stop offset
  if first.number = last.number
  then ix.replaceWithinM first tail length text
  else ix.replaceAcrossM first.number last.number tail length text

def widenLeftM (e : Splice) : m Splice :=
  if 0 < e.start then do
    let start ← sub e.start 1
    let c ← ix.tree.newlineCharAtM start
    return if c = some '\r' then { e with start, text := '\r' :: e.text } else e
  else return e

def widenRightM (e : Splice) : m Splice := do
  let c ← ix.tree.newlineCharAtM e.stop
  return if c = some '\n' then { e with stop := e.stop + 1, text := e.text ++ ['\n'] } else e

-- Takes a carriage return before the replaced characters and a line feed after them into the edit,
-- and replaces them if the text has them.
def replaceM (offset length : Nat) (text : String) : m LineIndex :=
  if offset + length ≤ ix.length then do
    let e ← ix.widenLeftM ⟨offset, offset + length, text.toList⟩
    let e ← ix.widenRightM e
    let length ← sub e.stop e.start
    ix.replaceCharsM e.start length e.text
  else missing

end Edit

-- Replaces `length` characters from an offset on, if the text has them.
def replace (ix : LineIndex) (offset length : Nat) (text : String) : Except LineError LineIndex :=
  match ix.replaceM offset length text with
  | some ix => .ok ix
  | none    => .error (.offsetOutOfBounds (min (offset + length) maxOffset) ix.length)

end LineIndex
end Caret
