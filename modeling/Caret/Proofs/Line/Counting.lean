import Caret.Line.Edit
import Caret.Proofs.Text.Lines

-- What is known of the numbers that the counters of a tree can be. Those below a limit are exact,
-- and so the result of an edit does not depend on the kind of its numbers, as long as none of them
-- reaches the limit.
namespace Caret

-- After the last newline a line begins that has none.
def Line.EndOpen (ls : List Line) : Prop :=
  (ls.map Line.newline).getLast? = some none

-- A line is empty and has a newline, and the line without one is behind it.
def LineTree.Removable (t : LineTree) (number : Nat) : Prop :=
  ∃ a x b, t.toList = a ++ x :: b ∧ a.length = number ∧ x.length = 0 ∧ x.newline.isSome ∧
    Line.EndOpen b

namespace Counters

-- A calculation has the given result, and nothing goes wrong on the way to it.
class Outcome (μ : Type → Type) where
  Gives {α : Type} : μ α → α → Prop

open Outcome (Gives)

-- A signed amount has one bit less.
structure Exact (μ : Type → Type) [Monad μ] [Counters μ] [Outcome μ] (limit : Nat) : Prop where
  large : 4 ≤ limit
  pure {α : Type} (a : α) : Gives (Pure.pure a : μ α) a
  bind {α β : Type} {x : μ α} {f : α → μ β} {a : α} {b : β} (hx : Gives x a) (hf : Gives (f a) b) :
    Gives (x >>= f) b
  attempt {α : Type} {x : μ α} {a : α} (hx : Gives x a) : Gives (attempt x) (some a)
  shift {n k : Nat} {delta : Int} (hlo : -(limit / 2 : Nat) ≤ delta)
    (hhi : delta < (limit / 2 : Nat)) (hk : (k : Int) = n + delta) (hlt : k < limit) :
    Gives (shift n delta : μ Nat) k
  add {n m : Nat} (hlt : n + m < limit) : Gives (add n m : μ Nat) (n + m)
  sub {n m k : Nat} (hk : n = k + m) (hlt : n < limit) : Gives (sub n m : μ Nat) k
  removing {t : LineTree} {number : Nat} (h : t.Removable number) :
    Gives (removing t number : μ Unit) ()

theorem Exact.ofOption {μ : Type → Type} [Monad μ] [Counters μ] [Outcome μ] {limit : Nat}
    {α : Type} {o : Option α} {a : α} (c : Exact μ limit) (h : o = some a) :
    Gives (ofOption o : μ α) a :=
  h ▸ c.pure a

instance : Outcome Option where
  Gives x a := x = some a

theorem exact_option {limit : Nat} (h : 4 ≤ limit) : Exact Option limit where
  large           := h
  pure _          := rfl
  bind hx hf      := by rw [hx]; exact hf
  attempt hx      := congrArg some hx
  shift _ _ hk _  := by
    change (if _ then _ else _) = _
    rw [if_pos (by omega), ← hk, Int.toNat_natCast]
  add _           := rfl
  sub hk _        := by
    change (if _ then _ else _) = _
    rw [if_pos (by omega), hk, Nat.add_sub_cancel]
  removing _      := rfl

-- A calculation that leaves open what its numbers are.
abbrev Calculation (α : Type) :=
  (μ : Type → Type) → [Monad μ] → [Counters μ] → μ α

-- The result of a calculation, whatever its numbers are.
def Yields (limit : Nat) {α : Type} (x : Calculation α) (a : α) : Prop :=
  ∀ (μ : Type → Type) [Monad μ] [Counters μ] [Outcome μ], Exact μ limit → Gives (x μ) a

theorem Yields.eq_some {limit : Nat} {α : Type} {x : Calculation α} {a : α} (h : Yields limit x a)
    (hlimit : 4 ≤ limit) : x Option = some a :=
  h Option (exact_option hlimit)

end Counters
end Caret
