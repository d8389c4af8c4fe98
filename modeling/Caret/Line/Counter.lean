import Caret.Line.Tree

-- The counters of a line tree. What an edit computes with them is written once, for all kinds of
-- numbers that they can be. By default they are exact, and a result that would be negative does not
-- exist.
namespace Caret

class Counters (m : Type → Type) where
  -- Adds a signed amount.
  shift    : (n : Nat) → (delta : Int) → m Nat
  add      : (n k : Nat) → m Nat
  sub      : (n k : Nat) → m Nat
  -- The line with this number is about to be removed.
  removing : LineTree → (number : Nat) → m Unit
  -- What is looked for does not exist.
  missing  : {α : Type} → m α
  -- Goes on with `none` if something is missing.
  attempt  : {α : Type} → m α → m (Option α)

namespace Counters

instance : Counters Option where
  shift n delta := if 0 ≤ n + delta then some (n + delta).toNat else none
  add n k       := some (n + k)
  sub n k       := if k ≤ n then some (n - k) else none
  removing _ _  := some ()
  missing       := none
  attempt       := some

def ofOption {m : Type → Type} [Monad m] [Counters m] {α : Type} : Option α → m α
  | some a => return a
  | none   => missing

end Counters
end Caret
