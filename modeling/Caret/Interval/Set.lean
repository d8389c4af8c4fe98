import Caret.Interval.Basic
import Caret.Interval.Search

-- Sets of 32-bit integers as lists of intervals. Insertion keeps the intervals ascending and apart,
-- so a set has one representation; a set that was read from elsewhere may hold any list.
namespace Caret

structure IntervalSet where
  intervals : List Interval
deriving DecidableEq

namespace IntervalSet

def empty : IntervalSet :=
  ⟨[]⟩

-- The intervals are non-empty, ascending and apart: between two neighbours at least one value is
-- missing.
structure Canonical (s : IntervalSet) : Prop where
  nonempty : ∀ i ∈ s.intervals, i.start ≤ i.stop
  apart    : s.intervals.Pairwise fun i j => i.stop.toInt + 1 < j.start.toInt

theorem Canonical.empty : Canonical empty where
  nonempty := by simp [IntervalSet.empty]
  apart    := .nil

section Arithmetic

variable {m : Type → Type} [Monad m] [Arithmetic m]

-- Merges `i` with the leading intervals that overlap or touch it.
def absorbM (i : Interval) : List Interval → m (List Interval)
  | []      => return [i]
  | j :: js => do
    if j.start.toInt ≤ (← i.nextM)
    then absorbM ⟨min i.start j.start, max i.stop j.stop⟩ js
    else return i :: j :: js

variable (s : IntervalSet)

-- Adds the values from `start` to `stop`.
def insertRangeM (start stop : Int32) : m IntervalSet :=
  if stop < start then return s else do
    let n      ← partitionPointM (fun i => return (← i.nextM) < start.toInt) s.intervals
    let merged ← absorbM ⟨start, stop⟩ (s.intervals.drop n)
    return ⟨s.intervals.take n ++ merged⟩

def insertM (v : Int32) : m IntervalSet :=
  s.insertRangeM v v

def unionM (t : IntervalSet) : m IntervalSet :=
  t.intervals.foldlM (fun s i => s.insertRangeM i.start i.stop) s

def ofRangeM (start stop : Int32) : m IntervalSet :=
  empty.insertRangeM start stop

def singletonM (v : Int32) : m IntervalSet :=
  ofRangeM v v

def ofListM (vs : List Int32) : m IntervalSet :=
  vs.foldlM (·.insertM ·) empty

-- Inserts the gap in front of an interval, if there is one, into `found`.
def fillM (found : IntervalSet) (next : Int) (i : Interval) : m IntervalSet :=
  if next < i.start.toInt
  then do found.insertRangeM (← narrow next) (← narrow (i.start.toInt - 1))
  else return found

-- Inserts the gaps between the intervals, up to `max`, into `found`. `next` is the first value not
-- yet decided; it may lie one beyond the 32-bit range.
def gapsM (max : Int32) : List Interval → (next : Int) → (found : IntervalSet) →
    m (Int × IntervalSet)
  | [], next, found      => return (next, found)
  | i :: is, next, found =>
    if i.stop.toInt < next then gapsM max is next found
    else if max.toInt < i.start.toInt then return (next, found)
    else do
      let found ← found.fillM next i
      gapsM max is (← i.nextM) found

-- The values from `min` to `max` that are not in the set.
def complementM (min max : Int32) : m IntervalSet := do
  let (next, found) ← gapsM max s.intervals min.toInt empty
  if next ≤ max.toInt
  then found.insertRangeM (← narrow next) (← narrow max.toInt)
  else return found

def sizeM : m Nat :=
  s.intervals.foldlM (fun total i => do
    let size ← i.sizeM
    count (total + size : Nat)) 0

end Arithmetic

def absorb (i : Interval) (js : List Interval) : List Interval :=
  Id.run (absorbM i js)

def insertRange (s : IntervalSet) (start stop : Int32) : IntervalSet :=
  Id.run (s.insertRangeM start stop)

def insert (s : IntervalSet) (v : Int32) : IntervalSet :=
  Id.run (s.insertM v)

def union (s t : IntervalSet) : IntervalSet :=
  Id.run (s.unionM t)

def ofRange (start stop : Int32) : IntervalSet :=
  Id.run (ofRangeM start stop)

def singleton (v : Int32) : IntervalSet :=
  Id.run (singletonM v)

def ofList (vs : List Int32) : IntervalSet :=
  Id.run (ofListM vs)

def fill (found : IntervalSet) (next : Int) (i : Interval) : IntervalSet :=
  Id.run (found.fillM next i)

def gaps (max : Int32) (is : List Interval) (next : Int) (found : IntervalSet) :
    Int × IntervalSet :=
  Id.run (gapsM max is next found)

def complement (s : IntervalSet) (min max : Int32) : IntervalSet :=
  Id.run (s.complementM min max)

def size (s : IntervalSet) : Nat :=
  Id.run s.sizeM

-- Only the first interval that does not end below `v` can hold it.
def contains (s : IntervalSet) (v : Int32) : Bool :=
  s.intervals[partitionPoint (fun i => i.stop < v) s.intervals]?.any (decide <| v ∈ ·)

def isEmpty (s : IntervalSet) : Bool :=
  s.intervals.isEmpty

-- The only member, if there is exactly one.
def single? (s : IntervalSet) : Option Int32 :=
  match s.intervals with
  | [i] => if i.start = i.stop then some i.start else none
  | _   => none

-- The members, interval by interval.
def toList (s : IntervalSet) : List Int32 :=
  s.intervals.flatMap Interval.toList

-- Intervals between braces, a single value without its second bound.
def render (s : IntervalSet) : String :=
  "\x7b" ++ ", ".intercalate (s.intervals.map Interval.render) ++ "\x7d"

end IntervalSet
end Caret
