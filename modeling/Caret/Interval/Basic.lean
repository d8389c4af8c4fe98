-- Closed intervals of 32-bit integers, and the arithmetic that is done with their bounds.
namespace Caret

-- What becomes of an exact result that is to be a signed number of 64 or of 32 bits, or an unsigned
-- one of 64 bits.
class Arithmetic (m : Type → Type) where
  wide   : Int → m Int
  narrow : Int → m Int32
  count  : Int → m Nat

export Arithmetic (wide narrow count)

-- By itself arithmetic wraps around.
instance : Arithmetic Id where
  wide n   := (Int64.ofInt n).toInt
  narrow n := Int32.ofInt n
  count n  := (UInt64.ofInt n).toNat

-- The values from `start` to `stop`, both included; none if `stop` lies below `start`.
structure Interval where
  start : Int32
  stop  : Int32
deriving DecidableEq

namespace Interval

instance : Membership Int32 Interval where
  mem i v := i.start ≤ v ∧ v ≤ i.stop

theorem mem_def {i : Interval} {v : Int32} : v ∈ i ↔ i.start ≤ v ∧ v ≤ i.stop :=
  Iff.rfl

instance (i : Interval) (v : Int32) : Decidable (v ∈ i) :=
  inferInstanceAs (Decidable (_ ∧ _))

section Arithmetic

variable {m : Type → Type} [Monad m] [Arithmetic m] (i : Interval)

-- The first value behind the interval. It may lie one beyond the 32-bit range.
def nextM : m Int :=
  wide (i.stop.toInt + 1)

-- The size of an inverted interval is negative before it is made a count.
def sizeM : m Nat := do
  let width ← wide (i.stop.toInt - i.start.toInt)
  count (← wide (width + 1))

end Arithmetic

def size (i : Interval) : Nat :=
  Id.run i.sizeM

-- The members in ascending order.
def toList (i : Interval) : List Int32 :=
  let count := (i.stop.toInt - i.start.toInt + 1).toNat
  (List.range count).map fun (n : Nat) => Int32.ofInt (i.start.toInt + n)

def render (i : Interval) : String :=
  if i.start = i.stop
  then toString i.start.toInt
  else toString i.start.toInt ++ ".." ++ toString i.stop.toInt

end Interval
end Caret
